import EbpfIsp.Network.Graph

/-! # What the construction yields

`__init__` accepts its arguments exactly when the layers fit together, and then
the net is the graph under the names of its blobs and the weights of all layers
are fed. `create` adds the indices of the interactions; every input of the net
it creates is fed or an output of an earlier operator.
-/

namespace EbpfIsp.Network
open Library Recsys Dataflow

section Feeds
variable {α : Type} {m : ℕ} {net : Net α m}

theorem feed_name (ws : Workspace (Tensor α) m) (c c' : Blob) (v : Value α m) :
    feedBlobWrapper ws c.name v c'.name = if c' = c then some v else ws c'.name := by
  rw [feedBlobWrapper, Function.update_apply]
  simp only [Blob.name_injective.eq_iff]

theorem Net.feed_name (c c' : Blob) (v : Value α m) :
    (net.feed c.name v).ws c'.name = if c' = c then some v else net.ws c'.name :=
  Network.feed_name net.ws c c' v

variable (draws : Draws α)

def layerWeight (l : Mlp) (ln : List ℕ) (i : ℕ) : Tensor α :=
  weight draws (Blob.fc l i .w).name (ln.getD i 0) (ln.getD (i - 1) 0)

def layerBias (l : Mlp) (ln : List ℕ) (i : ℕ) : Tensor α :=
  bias draws (Blob.fc l i .b).name (ln.getD i 0)

def mlpFeeds (l : Mlp) (ln : List ℕ) (k : ℕ) : Blob → Option (Value α m)
  | .fc l' i .w => if l' = l ∧ 1 ≤ i ∧ i ≤ k then some (.dense (layerWeight draws l ln i)) else none
  | .fc l' i .b => if l' = l ∧ 1 ≤ i ∧ i ≤ k then some (.dense (layerBias draws l ln i)) else none
  | _ => none

theorem upTo_succ {V : Type} (p : Prop) [Decidable p] (x : ℕ → V) (i k : ℕ) (v : Option V) :
    (if p ∧ 1 ≤ i ∧ i ≤ k + 1 then some (x i) else none).or v =
      if p ∧ i = k + 1 then some (x (k + 1))
      else (if p ∧ 1 ≤ i ∧ i ≤ k then some (x i) else none).or v := by
  by_cases hp : p
  · by_cases hi : i = k + 1
    · subst hi
      simp [hp]
    · have hiff : i ≤ k + 1 ↔ i ≤ k := by omega
      simp [hp, hi, hiff]
  · simp [hp]

theorem mlpFeeds_zero (l : Mlp) (ln : List ℕ) (c : Blob) :
    (mlpFeeds draws l ln 0 c : Option (Value α m)) = none := by
  cases c with
  | fc l' i s =>
    have hnot : ¬ (l' = l ∧ 1 ≤ i ∧ i ≤ 0) := by omega
    cases s <;> simp only [mlpFeeds, if_neg hnot]
  | _ => rfl

theorem mlpFeeds_succ (l : Mlp) (ln : List ℕ) (k : ℕ) (c : Blob) (v : Option (Value α m)) :
    (mlpFeeds draws l ln (k + 1) c).or v =
      if c = .fc l (k + 1) .b then some (.dense (layerBias draws l ln (k + 1)))
      else if c = .fc l (k + 1) .w then some (.dense (layerWeight draws l ln (k + 1)))
      else (mlpFeeds draws l ln k c).or v := by
  cases c with
  | fc l' i s =>
    cases s with
    | w => simpa [mlpFeeds] using
        upTo_succ (l' = l) (fun i => BlobValue.dense (layerWeight draws l ln i)) i k v
    | b => simpa [mlpFeeds] using
        upTo_succ (l' = l) (fun i => BlobValue.dense (layerBias draws l ln i)) i k v
    | y => simp [mlpFeeds]
    | z => simp [mlpFeeds]
  | _ => simp [mlpFeeds]

structure MlpBuilt (l : Mlp) (ln : List ℕ) (inp out : Blob) (sigmoidLayer : ℤ) (net : Net α m)
    (k : ℕ) (acc : MlpLoop α m) : Prop where
  ops : acc.net.ops = net.ops ++
    (mlpOps l (ln.length - 1) inp out sigmoidLayer k).map (rename Blob.name)
  tagIn : acc.tagIn = (zBlob l (ln.length - 1) inp out k).name
  last : acc.layers.getLast? = if k = 0 then none else some acc.tagIn
  ws : ∀ c : Blob, acc.net.ws c.name = (mlpFeeds draws l ln k c).or (net.ws c.name)

/-- `create_mlp` adds its layers in order and feeds their weights. -/
theorem createMlp_spec (ln : List ℕ) (sigmoidLayer : ℤ) (l : Mlp) (inp out : Blob) (net : Net α m) :
    ∃ tagIn, MlpBuilt draws l ln inp out sigmoidLayer net (ln.length - 1)
      ⟨(createMlp draws ln sigmoidLayer l.tag inp.name out.name net).1, tagIn,
        (createMlp draws ln sigmoidLayer l.tag inp.name out.name net).2⟩ := by
  refine ⟨_, forPure_invariant (MlpBuilt draws l ln inp out sigmoidLayer net) _ _ _ ?_ ?_⟩
  · exact ⟨by simp [mlpOps], rfl, rfl, by simp [mlpFeeds_zero]⟩
  · rintro k hk acc ⟨hops, htag, hlast, hws⟩
    have hz : (if k + 1 = ln.length - 1 then out.name
        else l.tag ++ ":::" ++ "fc" ++ toString (k + 1) ++ "_z") =
        (zBlob l (ln.length - 1) inp out (k + 1)).name := by
      rw [zBlob, if_neg (Nat.succ_ne_zero k)]
      split_ifs <;> rfl
    constructor
    · rw [mlpOps, List.range_succ, List.flatMap_append, List.flatMap_singleton, List.map_append,
        ← List.append_assoc, ← mlpOps, ← hops]
      simp only [Net.add, Net.feed, List.append_assoc, htag, hz]
      rfl
    · exact hz
    · simp
    · intro c
      rw [mlpFeeds_succ, ← hws c]
      exact (Net.feed_name (.fc l (k + 1) .b) c _).trans
        (if_congr Iff.rfl rfl (Net.feed_name (.fc l (k + 1) .w) c _))

theorem createInteractions_spec (op : InteractionOp) (tables : ℕ) (net : Net α m) :
    createInteractions op [Blob.denseOut.name] ((embBlob tables).map Blob.name) "interaction" net =
      match op with
      | .other name => .error (unsupported name)
      | _ => .ok (⟨net.ops ++ (intOps tables op).map (rename Blob.name), net.ws⟩,
          (Blob.int .out).name) := by
  cases op with
  | dot =>
    simp only [createInteractions, Net.add, List.append_assoc]
    rfl
  | cat => rfl
  | other name => rfl

theorem lastOf_eq_ok {α : Type} {l : List α} {a : α} (h : lastOf l = .ok a) :
    l.getLast? = some a := by
  rw [lastOf] at h
  split at h
  · rename_i b hb
    cases h
    exact hb
  · cases h

theorem MlpBuilt.lastOf {l : Mlp} {ln : List ℕ} {inp out : Blob} {sigmoidLayer : ℤ}
    {net net' : Net α m} {tagIn x : String} {layers : List String}
    (h : MlpBuilt draws l ln inp out sigmoidLayer net (ln.length - 1) ⟨net', tagIn, layers⟩)
    (hx : lastOf layers = .ok x) : 2 ≤ ln.length ∧ x = out.name := by
  have hlast := h.last.symm.trans (lastOf_eq_ok hx)
  split_ifs at hlast with hzero
  refine ⟨by omega, (Option.some.inj hlast).symm.trans (h.tagIn.trans ?_)⟩
  rw [zBlob, if_neg hzero, if_pos rfl]

theorem createInteractions_eq_ok {op : InteractionOp} {tables : ℕ} {net : Net α m}
    {out : Net α m × String} (h : createInteractions op [Blob.denseOut.name]
      ((embBlob tables).map Blob.name) "interaction" net = .ok out) :
    (∀ name, op ≠ .other name) ∧
      out = (⟨net.ops ++ (intOps tables op).map (rename Blob.name), net.ws⟩,
        (Blob.int .out).name) := by
  rw [createInteractions_spec] at h
  cases op with
  | dot => exact ⟨by simp, (Except.ok.inj h).symm⟩
  | cat => exact ⟨by simp, (Except.ok.inj h).symm⟩
  | other name => cases h

theorem lastOf_of_getLast? {α : Type} {l : List α} {a : α} (h : l.getLast? = some a) :
    lastOf l = .ok a := by
  rw [lastOf, h]

theorem MlpBuilt.lastOf_eq {l : Mlp} {ln : List ℕ} {inp out : Blob} {sigmoidLayer : ℤ}
    {net net' : Net α m} {tagIn : String} {layers : List String}
    (h : MlpBuilt draws l ln inp out sigmoidLayer net (ln.length - 1) ⟨net', tagIn, layers⟩)
    (hlen : 2 ≤ ln.length) : Network.lastOf layers = .ok out.name := by
  have htag : tagIn = out.name := by
    refine h.tagIn.trans ?_
    rw [zBlob, if_neg (by omega), if_pos rfl]
  apply lastOf_of_getLast?
  rw [← htag]
  exact h.last.trans (if_neg (by omega))

theorem createInteractions_of_supported {op : InteractionOp} (h : ∀ name, op ≠ .other name)
    (tables : ℕ) (net : Net α m) : ∃ net', createInteractions op [Blob.denseOut.name]
      ((embBlob tables).map Blob.name) "interaction" net = .ok (net', (Blob.int .out).name) := by
  rw [createInteractions_spec]
  cases op with
  | dot => exact ⟨_, rfl⟩
  | cat => exact ⟨_, rfl⟩
  | other name => exact absurd rfl (h name)

/-- With `--queue` there is no queue to read the first table from. -/
theorem createEmb_queue {ln : List ℕ} (hne : ln ≠ []) (tagLayer : String) (net : Net α m) :
    createEmb draws true ln tagLayer net = .error (.python .typeError) := by
  obtain ⟨n, hn⟩ := Nat.exists_eq_succ_of_ne_zero (by simpa using hne : ln.length ≠ 0)
  rw [createEmb, hn]
  exact forLoop_error (k := 0) rfl rfl (Nat.succ_pos n)

def tableWeight (m : ℕ) (ln : List ℕ) (i : ℕ) : Tensor α :=
  weight draws (Blob.sls i .w).name (ln.getD i 0) m

variable [Zero α]

def tableFeeds (slsType : SlsType) (ln : List ℕ) (k : ℕ) : Blob → Option (Value α m)
  | .sls i .w =>
    if slsType = .dram ∧ i < k then some (.dense (tableWeight draws m ln i)) else none
  | .sls i .z => if slsType = .dram then none else if i < k then some (.dense zeroTensor) else none
  | _ => none

theorem tableFeeds_zero (slsType : SlsType) (ln : List ℕ) (c : Blob) :
    (tableFeeds draws slsType ln 0 c : Option (Value α m)) = none := by
  cases c with
  | sls i s => cases s <;> simp [tableFeeds]
  | _ => rfl

theorem tableFeeds_succ (slsType : SlsType) (ln : List ℕ) (k : ℕ) (c : Blob)
    (v : Option (Value α m)) : (tableFeeds draws slsType ln (k + 1) c).or v =
      if c = .sls k (if slsType = .dram then .w else .z) then
        some (if slsType = .dram then .dense (tableWeight draws m ln k)
          else .dense zeroTensor)
      else (tableFeeds draws slsType ln k c).or v := by
  cases c with
  | sls i s =>
    by_cases hi : i = k
    · subst hi
      cases s <;> by_cases hd : slsType = .dram <;> simp [tableFeeds, hd]
    · have hiff : i < k + 1 ↔ i < k := by omega
      cases s <;> simp [tableFeeds, hi, hiff]
  | _ => simp [tableFeeds]

/-- The net, the names and the feeds after the first `k` tables. -/
structure TablesBuilt (slsType : SlsType) (ln : List ℕ) (net : Net α m) (k : ℕ)
    (acc : Net α m × List String) : Prop where
  ops : acc.1.ops = net.ops ++ (tableOps slsType k).map (rename Blob.name)
  embL : acc.2 = (embBlob k).map Blob.name
  ws : ∀ c : Blob, acc.1.ws c.name = (tableFeeds draws slsType ln k c).or (net.ws c.name)

theorem createEmb_spec (ln : List ℕ) (net : Net α m) :
    ∃ acc, createEmb draws false ln "emb" net = .ok acc ∧
      TablesBuilt draws .dram ln net ln.length acc := by
  refine forLoop_invariant (M := Except NetError) (TablesBuilt draws .dram ln net) _ _ _ ?_ ?_
  · exact ⟨by simp [tableOps, embOps], by simp [embBlob], by simp [tableFeeds_zero]⟩
  · rintro k hk acc ⟨hops, hembL, hws⟩
    refine ⟨_, rfl, ⟨?_, ?_, fun c => ?_⟩⟩
    · rw [tableOps, embOps, List.range_succ, List.map_append, List.map_append, ← List.append_assoc,
        ← embOps]
      rw [tableOps] at hops
      rw [← hops]
      rfl
    · rw [embBlob, List.range_succ, List.map_append, List.map_append, ← embBlob, ← hembL]
      rfl
    · rw [tableFeeds_succ, ← hws c]
      exact Net.feed_name (.sls k .w) c _

theorem embBlobs_spec {slsType : SlsType} (hsls : slsType ≠ .dram) (ln : List ℕ) (net : Net α m) :
    TablesBuilt draws slsType ln net ln.length (embBlobs ln.length "emb" net) := by
  have hnone : ∀ k, tableOps slsType k = [] := by
    intro k
    cases slsType with
    | dram => exact absurd rfl hsls
    | base => rfl
    | ndp => rfl
  refine forPure_invariant (TablesBuilt draws slsType ln net) _ _ _ ?_ ?_
  · exact ⟨by simp [hnone], by simp [embBlob], by simp [tableFeeds_zero]⟩
  · rintro k hk acc ⟨hops, hembL, hws⟩
    rw [hnone] at hops
    constructor
    · rw [hnone]
      exact hops
    · rw [embBlob, List.range_succ, List.map_append, List.map_append, ← embBlob, ← hembL]
      rfl
    · intro c
      rw [tableFeeds_succ, ← hws c, if_neg hsls, if_neg hsls]
      exact Net.feed_name (.sls k .z) c _

end Feeds

section Init
variable {α : Type} [Zero α] {m : ℕ} (draws : Draws α) {args : Args}
  {ws : Workspace (Tensor α) m} {dlrm : Dlrm α m}

/-- The features that the interactions yield for the rows of width `m`. -/
def Args.interactions (args : Args) (m : ℕ) : ℕ :=
  let numFea := args.archEmbeddingSize.length + 1
  match args.archInteractionOp with
  | .dot =>
    (if args.archInteractionItself then numFea * (numFea + 1) / 2
      else numFea * (numFea - 1) / 2) + m
  | .cat => numFea * m
  | .other _ => 0

def Args.lnTop (args : Args) (m : ℕ) : List ℕ := args.interactions m :: args.archMlpTop

/-- The arguments that `__init__` accepts. -/
structure Args.Fits (args : Args) (m : ℕ) : Prop where
  bot : 2 ≤ args.archMlpBot.length
  top : args.archMlpTop ≠ []
  width : args.archMlpBot.getLast? = some m
  supported : ∀ name, args.archInteractionOp ≠ .other name
  queue : args.queue = true → args.slsType = .dram → args.archEmbeddingSize = []

def Args.graph (args : Args) : List BlobOp :=
  netOps args.slsType args.archInteractionOp args.archEmbeddingSize.length
    (args.archMlpBot.length - 1) args.archMlpTop.length

def Args.feeds (args : Args) (c : Blob) (v : Option (Value α m)) : Option (Value α m) :=
  (mlpFeeds draws .top (args.lnTop m) args.archMlpTop.length c).or
    ((mlpFeeds draws .bot args.archMlpBot (args.archMlpBot.length - 1) c).or
      ((tableFeeds draws args.slsType args.archEmbeddingSize args.archEmbeddingSize.length c).or v))

structure Built (args : Args) (ws : Workspace (Tensor α) m) (dlrm : Dlrm α m) : Prop where
  args_eq : dlrm.args = args
  tags_eq : dlrm.tags = {}
  embL : dlrm.embL = (embBlob args.archEmbeddingSize.length).map Blob.name
  lastOutput : dlrm.lastOutput = Blob.probClick.name
  ops : dlrm.net.ops = args.graph.map (rename Blob.name)
  ws : ∀ c : Blob, dlrm.net.ws c.name = args.feeds draws c (ws c.name)

theorem Built.length_embL (h : Built draws args ws dlrm) :
    dlrm.embL.length = args.archEmbeddingSize.length := by
  simp [h.embL, embBlob]

theorem createTables_spec (net : Net α m)
    (hqueue : args.queue = true → args.slsType = .dram → args.archEmbeddingSize = []) :
    ∃ acc, createTables draws args "emb" net = .ok acc ∧
      TablesBuilt draws args.slsType args.archEmbeddingSize net args.archEmbeddingSize.length
        acc := by
  rw [createTables]
  cases hsls : args.slsType with
  | dram =>
    cases hq : args.queue with
    | false => exact createEmb_spec draws _ net
    | true =>
      rw [hqueue hq hsls]
      exact ⟨_, rfl, ⟨by simp [tableOps, embOps], by simp [embBlob], by simp [tableFeeds_zero]⟩⟩
  | base => exact ⟨_, rfl, embBlobs_spec draws (by decide) _ net⟩
  | ndp => exact ⟨_, rfl, embBlobs_spec draws (by decide) _ net⟩

theorem queue_of_createTables {tagLayer : String} {net : Net α m} {acc : Net α m × List String}
    (h : createTables draws args tagLayer net = .ok acc) (hq : args.queue = true)
    (hsls : args.slsType = .dram) : args.archEmbeddingSize = [] := by
  by_contra hne
  rw [createTables, hsls, hq] at h
  dsimp only at h
  rw [createEmb_queue draws hne] at h
  cases h

theorem createSequentialForwardOps_spec
    (h : createSequentialForwardOps draws args {} (args.lnTop m) ⟨[], ws⟩ = .ok dlrm) :
    2 ≤ args.archMlpBot.length ∧ args.archMlpTop ≠ [] ∧
      (∀ name, args.archInteractionOp ≠ .other name) ∧
      (args.queue = true → args.slsType = .dram → args.archEmbeddingSize = []) ∧
      Built draws args ws dlrm := by
  obtain ⟨emb', hemb', h⟩ := bind_eq_ok h
  have hqueue := queue_of_createTables draws hemb'
  obtain ⟨emb, hemb, htables⟩ := createTables_spec draws ⟨[], ws⟩ hqueue
  obtain rfl : emb = emb' := Except.ok.inj (hemb.symm.trans hemb')
  obtain ⟨_, hbot⟩ := createMlp_spec draws args.archMlpBot (-1) .bot .denseIn .denseOut emb.1
  obtain ⟨x, hx, h⟩ := bind_eq_ok h
  obtain ⟨hlen, rfl⟩ := hbot.lastOf draws hx
  obtain ⟨int, hint, h⟩ := bind_eq_ok h
  rw [htables.embL] at hint
  obtain ⟨hsupported, rfl⟩ := createInteractions_eq_ok hint
  obtain ⟨_, htop⟩ := createMlp_spec draws (args.lnTop m) ((args.lnTop m).length - 1) .top
    (.int .out) .probClick ⟨(createMlp draws args.archMlpBot (-1) "bot" "dense_in" "dense_out"
      emb.1).1.ops ++
        (intOps args.archEmbeddingSize.length args.archInteractionOp).map (rename Blob.name),
      (createMlp draws args.archMlpBot (-1) "bot" "dense_in" "dense_out" emb.1).1.ws⟩
  obtain ⟨last, hlast, h⟩ := bind_eq_ok h
  obtain ⟨hlenTop, rfl⟩ := htop.lastOf draws hlast
  cases h
  refine ⟨hlen, ?_, hsupported, hqueue, ⟨rfl, rfl, htables.embL, rfl, ?_, ?_⟩⟩
  · rintro hnil
    simp [Args.lnTop, hnil] at hlenTop
  · have hlayers : ((args.lnTop m).length : ℤ) - 1 = args.archMlpTop.length := by
      simp [Args.lnTop]
    have hbotOps := hbot.ops
    refine htop.ops.trans ?_
    rw [htables.ops] at hbotOps
    rw [hlayers]
    simp only [Args.graph, netOps, List.map_append, botOps, topOps]
    exact congrArg₂ _ (congrArg₂ _ hbotOps rfl) rfl
  · intro c
    refine (htop.ws c).trans (congrArg _ ((hbot.ws c).trans (congrArg _ (htables.ws c))))

theorem numInt_eq_ok {num : ℕ} (h : numInt args m = .ok num) : num = args.interactions m := by
  rw [numInt] at h
  rw [Args.interactions]
  cases hop : args.archInteractionOp with
  | dot =>
    simp only [hop] at h ⊢
    split_ifs at h ⊢ <;> exact (Except.ok.inj h).symm
  | cat =>
    simp only [hop] at h ⊢
    exact (Except.ok.inj h).symm
  | other name => simp [hop] at h

theorem checkDims_eq_ok {mSpa mDen mDenOut num : ℕ} {lnBot lnTop : List ℕ} {u : Unit}
    (h : checkDims mSpa mDen mDenOut num lnBot lnTop = .ok u) : mSpa = mDenOut := by
  by_contra hne
  rw [checkDims] at h
  split_ifs at h <;> cases h

/-- Whatever `__init__` accepts fits together and has the graph of its arguments. -/
theorem init_spec (h : Dlrm.init draws args ws = .ok dlrm) :
    args.Fits m ∧ Built draws args ws dlrm := by
  obtain ⟨mDen, -, hinit⟩ := bind_eq_ok h
  obtain ⟨mDenOut, hlast, hinit⟩ := bind_eq_ok hinit
  obtain ⟨num, hnum, hinit⟩ := bind_eq_ok hinit
  dsimp only at hinit
  obtain ⟨u, hcheck, hbuild⟩ := bind_eq_ok hinit
  obtain rfl := checkDims_eq_ok hcheck
  obtain rfl := numInt_eq_ok hnum
  obtain ⟨hbot, htop, hsupported, hqueue, hbuilt⟩ := createSequentialForwardOps_spec draws hbuild
  exact ⟨⟨hbot, htop, lastOf_eq_ok hlast, hsupported, hqueue⟩, hbuilt⟩

theorem exists_bind_ok {ε α β : Type} {x : Except ε α} {f : α → Except ε β} {a : α}
    (hx : x = .ok a) (hf : ∃ b, f a = .ok b) : ∃ b, (x >>= f) = .ok b := by
  subst hx
  exact hf

theorem Args.Fits.createSequentialForwardOps (h : args.Fits m) (ws : Workspace (Tensor α) m) :
    ∃ dlrm, createSequentialForwardOps draws args {} (args.lnTop m) ⟨[], ws⟩ = .ok dlrm := by
  obtain ⟨emb, hemb, htables⟩ := createTables_spec draws ⟨[], ws⟩ h.queue
  obtain ⟨_, hbot⟩ := createMlp_spec draws args.archMlpBot (-1) .bot .denseIn .denseOut emb.1
  obtain ⟨net, hint⟩ := createInteractions_of_supported h.supported args.archEmbeddingSize.length
    (createMlp draws args.archMlpBot (-1) Mlp.bot.tag Blob.denseIn.name Blob.denseOut.name emb.1).1
  obtain ⟨_, htop⟩ := createMlp_spec draws (args.lnTop m) ((args.lnTop m).length - 1) .top
    (.int .out) .probClick net
  have htoplen : 2 ≤ (args.lnTop m).length := by
    have hpos := List.length_pos_iff.mpr h.top
    simp only [Args.lnTop, List.length_cons]
    omega
  rw [← htables.embL] at hint
  exact exists_bind_ok hemb (exists_bind_ok (hbot.lastOf_eq draws h.bot) (exists_bind_ok hint
    (exists_bind_ok (htop.lastOf_eq draws htoplen) ⟨_, rfl⟩)))

theorem Args.Fits.numInt (h : args.Fits m) : Network.numInt args m = .ok (args.interactions m) := by
  rw [Network.numInt, Args.interactions]
  cases hop : args.archInteractionOp with
  | dot => split_ifs <;> rfl
  | cat => rfl
  | other name => exact absurd hop (h.supported name)

theorem Args.Fits.init (h : args.Fits m) (ws : Workspace (Tensor α) m) :
    ∃ dlrm, Dlrm.init draws args ws = .ok dlrm := by
  obtain ⟨mDen, rest, hbot⟩ : ∃ mDen rest, args.archMlpBot = mDen :: rest := by
    apply List.exists_cons_of_ne_nil
    rintro hnil
    have hlen := h.bot
    simp [hnil] at hlen
  have hfirst : firstOf args.archMlpBot = .ok mDen := by
    rw [hbot]
    rfl
  have hcheck : checkDims m mDen m (args.interactions m) args.archMlpBot (args.lnTop m) =
      .ok () := by
    rw [checkDims, hbot]
    simp [Args.lnTop]
    rfl
  exact exists_bind_ok hfirst (exists_bind_ok (lastOf_of_getLast? h.width)
    (exists_bind_ok h.numInt (exists_bind_ok hcheck (h.createSequentialForwardOps draws ws))))

end Init

section Create
variable {α : Type} {m : ℕ} (draws : Draws α) {args : Args}

def Args.Needs (args : Args) : Blob → Prop
  | .denseIn => True
  | .int .trilIndices => True
  | .fc .bot i .w | .fc .bot i .b => 1 ≤ i ∧ i ≤ args.archMlpBot.length - 1
  | .fc .top i .w | .fc .top i .b => 1 ≤ i ∧ i ≤ args.archMlpTop.length
  | .sls i .z => args.slsType ≠ .dram ∧ i < args.archEmbeddingSize.length
  | .sls i _ => args.slsType = .dram ∧ i < args.archEmbeddingSize.length
  | _ => False

theorem layer_inputs {ops : List BlobOp} {l : Mlp} {n : ℕ} {inp out : Blob} {sigmoidLayer : ℤ}
    (hinp : args.Needs inp ∨ Written ops inp)
    (hops : ∀ c, Written (mlpOps l n inp out sigmoidLayer n) c → Written ops c)
    (hw : ∀ k < n, args.Needs (.fc l (k + 1) .w) ∧ args.Needs (.fc l (k + 1) .b)) {a : BlobOp}
    (ha : a ∈ mlpOps l n inp out sigmoidLayer n) {b : Blob} (hb : b ∈ a.inputs) :
    args.Needs b ∨ Written ops b := by
  obtain ⟨k, hk, rfl | rfl | rfl | rfl⟩ := mem_inputs_mlpOps ha hb
  · cases k with
    | zero => exact hinp
    | succ k => exact .inr (hops _ (written_z (by omega)))
  · exact .inl (hw k hk).1
  · exact .inl (hw k hk).2
  · exact .inr (hops _ (written_y hk))

theorem Args.written_sls (hsls : args.slsType = .dram) {i : ℕ}
    (hi : i < args.archEmbeddingSize.length) : Written args.graph (.sls i .z) := by
  rw [Args.graph, hsls]
  exact written_table hi

/-- Every input of the net is needed from outside or written by the net. -/
theorem Args.Fits.inputs (h : args.Fits m) {op : BlobOp} (hop : op ∈ args.graph) {b : Blob}
    (hb : b ∈ op.inputs) : args.Needs b ∨ Written args.graph b := by
  have hdense : Written args.graph .denseOut := written_bot (written_out (by have := h.bot; omega))
  have hemb : ∀ i < args.archEmbeddingSize.length,
      args.Needs (.sls i .z) ∨ Written args.graph (.sls i .z) := by
    intro i hi
    by_cases hsls : args.slsType = .dram
    · exact .inr (Args.written_sls hsls hi)
    · exact .inl ⟨hsls, hi⟩
  have hint : ∀ {c}, Written (intOps args.archEmbeddingSize.length args.archInteractionOp) c →
      Written args.graph c := fun hc => written_int hc
  simp only [Args.graph, netOps, List.mem_append] at hop
  rcases hop with ((hop | hop) | hop) | hop
  · cases hsls : args.slsType with
    | dram =>
      rw [hsls] at hop
      obtain ⟨i, hi, rfl⟩ := List.mem_map.mp hop
      simp only [List.mem_cons, List.not_mem_nil, or_false] at hb
      rcases hb with rfl | rfl | rfl <;> exact .inl ⟨hsls, List.mem_range.mp hi⟩
    | base => simp [hsls, tableOps] at hop
    | ndp => simp [hsls, tableOps] at hop
  · have hin : args.Needs .denseIn := trivial
    exact layer_inputs (.inl hin) (fun c hc => written_bot hc)
      (fun k hk => ⟨⟨by omega, hk⟩, ⟨by omega, hk⟩⟩) hop hb
  · cases hkind : args.archInteractionOp with
    | dot =>
      simp only [hkind, intOps, embBlob] at hop hint
      simp only [List.mem_cons, List.not_mem_nil, or_false] at hop
      rcases hop with rfl | rfl | rfl | rfl | rfl
      · simp only [List.mem_cons, List.mem_map, List.mem_range] at hb
        rcases hb with rfl | ⟨i, hi, rfl⟩
        · exact .inr hdense
        · exact hemb i hi
      · obtain rfl : b = .int .catAxis0 := by simpa using hb
        exact .inr (hint (by simp [Written]))
      · obtain rfl : b = .int .matmul := by simpa using hb
        exact .inr (hint (by simp [Written]))
      · simp only [List.mem_cons, List.not_mem_nil, or_false] at hb
        rcases hb with rfl | rfl
        · exact .inr (hint (by simp [Written]))
        · exact .inl trivial
      · simp only [List.mem_cons, List.not_mem_nil, or_false] at hb
        rcases hb with rfl | rfl
        · exact .inr hdense
        · exact .inr (hint (by simp [Written]))
    | cat =>
      simp only [hkind, intOps, embBlob, List.mem_cons, List.not_mem_nil, or_false] at hop
      subst hop
      simp only [List.mem_cons, List.mem_map, List.mem_range] at hb
      rcases hb with rfl | ⟨i, hi, rfl⟩
      · exact .inr hdense
      · exact hemb i hi
    | other name => exact absurd hkind (h.supported name)
  · refine layer_inputs (.inr (hint ?_)) (fun c hc => written_top hc)
      (fun k hk => ⟨⟨by omega, hk⟩, ⟨by omega, hk⟩⟩) hop hb
    cases hkind : args.archInteractionOp with
    | dot => simp [Written, intOps]
    | cat => simp [Written, intOps]
    | other name => exact absurd hkind (h.supported name)

def inputFeeds (X : Tensor α) (sLengths : List (List ℕ)) (sIndices : ℕ → List ℕ) (k : ℕ) :
    Blob → Option (Value α m)
  | .denseIn => some (.dense X)
  | .sls i .l => if i < k then (sLengths[i]?).map .ints else none
  | .sls i .i => if i < k then some (.ints (sIndices i)) else none
  | _ => none

theorem inputFeeds_succ (X : Tensor α) {sLengths : List (List ℕ)} (sIndices : ℕ → List ℕ) {k : ℕ}
    {l : List ℕ} (hl : sLengths[k]? = some l) (c : Blob) (v : Option (Value α m)) :
    (inputFeeds X sLengths sIndices (k + 1) c).or v =
      if c = .sls k .i then some (.ints (sIndices k))
      else if c = .sls k .l then some (.ints l)
      else (inputFeeds X sLengths sIndices k c).or v := by
  cases c with
  | sls i s =>
    by_cases hi : i = k
    · subst hi
      cases s <;> simp [inputFeeds, hl]
    · have hiff : i < k + 1 ↔ i < k := by omega
      cases s <;> simp [inputFeeds, hi, hiff]
  | _ => simp [inputFeeds]

def Args.params (args : Args) : Blob → Option (Value α m)
  | .int .trilIndices =>
    some (trilValue args.archInteractionItself (args.archEmbeddingSize.length + 1))
  | .sls i .w =>
    if args.slsType = .dram ∧ i < args.archEmbeddingSize.length then
      some (.dense (tableWeight draws m args.archEmbeddingSize i)) else none
  | c => (mlpFeeds draws .top (args.lnTop m) args.archMlpTop.length c).or
      (mlpFeeds draws .bot args.archMlpBot (args.archMlpBot.length - 1) c)

/-- The network has been created and holds its weights. -/
structure Ready (caffe2 : Caffe2 α m) (args : Args) (dlrm : Dlrm α m) : Prop where
  args_eq : dlrm.args = args
  tags_eq : dlrm.tags = {}
  embL : dlrm.embL = (embBlob args.archEmbeddingSize.length).map Blob.name
  lastOutput : dlrm.lastOutput = Blob.probClick.name
  ops : dlrm.net.ops = args.graph.map (rename Blob.name)
  created : ∃ ws, caffe2.createNet (args.graph.map (rename Blob.name)) ws = .ok ()
  fed : ∀ c v, args.params draws c = some v → dlrm.net.ws c.name = some v

def tableIndices (sIndices : List (List ℕ)) (i : ℕ) : List ℕ := sIndices.getD i []

theorem feedTables_spec (X : Tensor α) {sLengths sIndices : List (List ℕ)} (net : Net α m) {n : ℕ}
    (hlen : n ≤ sLengths.length) (hlen' : n ≤ sIndices.length) :
    ∃ net', forLoop n (feedTable "emb" sLengths sIndices) (net.feed "dense_in" (.dense X)) =
        .ok net' ∧ net'.ops = net.ops ∧
      ∀ c : Blob, net'.ws c.name =
        (inputFeeds X sLengths (tableIndices sIndices) n c).or (net.ws c.name) := by
  refine forLoop_invariant (M := Except NetError)
    (fun k (net' : Net α m) => net'.ops = net.ops ∧ ∀ c : Blob, net'.ws c.name =
      (inputFeeds X sLengths (tableIndices sIndices) k c).or (net.ws c.name)) n _ _ ?_ ?_
  · refine ⟨rfl, fun c => (Net.feed_name .denseIn c _).trans ?_⟩
    cases c with
    | sls i s => cases s <;> simp [inputFeeds]
    | _ => simp [inputFeeds]
  · rintro k hk net' ⟨hops, hws⟩
    have hl : sLengths[k]? = some sLengths[k] := List.getElem?_eq_getElem (by omega)
    have hi : sIndices[k]? = some (tableIndices sIndices k) := by
      rw [tableIndices, List.getD_eq_getElem?_getD, List.getElem?_eq_getElem (by omega)]
      rfl
    have hfeed : feedTable "emb" sLengths sIndices k net' =
        .ok ((net'.feed (slsTag "emb" k "_l") (.ints sLengths[k])).feed (slsTag "emb" k "_i")
          (.ints (tableIndices sIndices k))) := by
      rw [feedTable, hl, hi]
    refine ⟨_, hfeed, hops, fun c => ?_⟩
    rw [inputFeeds_succ X _ hl, ← hws c]
    exact (Net.feed_name (.sls k .i) c _).trans
      (if_congr Iff.rfl rfl (Net.feed_name (.sls k .l) c _))

/-- A net that has all that it needs from outside has all its inputs. -/
theorem Args.Fits.complete (hfits : args.Fits m) {ws : Workspace (Tensor α) m}
    (hws : ∀ c, args.Needs c → (ws c.name).isSome) :
    Complete (fun b => (ws b).isSome = true) (args.graph.map (rename Blob.name)) := by
  apply complete_of_inOrder ((inOrder_netOps _ _ _ _ _).map Blob.name_injective)
  intro op hop b hb
  obtain ⟨op, hmem, rfl⟩ := List.mem_map.mp hop
  obtain ⟨c, hc, rfl⟩ := List.mem_map.mp hb
  rcases hfits.inputs hmem hc with hneeds | ⟨op', hop', hout⟩
  · exact .inl (hws c hneeds)
  · exact .inr fun hext => hext _ (List.mem_map_of_mem hop') (List.mem_map_of_mem hout)

variable [Zero α]

def Args.createdFeeds (args : Args) (X T : Tensor α) (sLengths : List (List ℕ))
    (sIndices : ℕ → List ℕ) (c : Blob) (v : Option (Value α m)) : Option (Value α m) :=
  if c = .int .trilIndices then
    some (trilValue args.archInteractionItself (args.archEmbeddingSize.length + 1))
  else if c = .target then some (.dense (T.map fun _ => 0))
  else (inputFeeds X sLengths sIndices args.archEmbeddingSize.length c).or (args.feeds draws c v)

theorem Args.isSome_createdFeeds (X T : Tensor α) {sLengths : List (List ℕ)}
    (sIndices : ℕ → List ℕ) (hlen : args.archEmbeddingSize.length ≤ sLengths.length) {c : Blob}
    (hc : args.Needs c) (v : Option (Value α m)) :
    (args.createdFeeds draws X T sLengths sIndices c v).isSome := by
  cases c with
  | fc l i s =>
    cases l <;> cases s <;> first
      | exact hc.elim
      | (obtain ⟨hlo, hhi⟩ := hc; simp [createdFeeds, inputFeeds, feeds, mlpFeeds, hlo, hhi])
  | sls i s =>
    obtain ⟨hsls, hi⟩ : (s = .z → args.slsType ≠ .dram) ∧ i < args.archEmbeddingSize.length ∧
        (s ≠ .z → args.slsType = .dram) := by
      cases s <;> exact ⟨by simp [hc.1], hc.2, by simp [hc.1]⟩
    cases s <;> simp_all [createdFeeds, inputFeeds, feeds, mlpFeeds, tableFeeds]
    omega
  | int s => cases s <;> first | exact hc.elim | simp [createdFeeds]
  | denseIn => simp [createdFeeds, inputFeeds]
  | denseOut => exact hc.elim
  | probClick => exact hc.elim
  | target => exact hc.elim

theorem Args.createdFeeds_of_params (X T : Tensor α) (sLengths : List (List ℕ))
    (sIndices : ℕ → List ℕ) {c : Blob} {v : Value α m} (hc : args.params draws c = some v)
    (w : Option (Value α m)) : args.createdFeeds draws X T sLengths sIndices c w = some v := by
  cases c with
  | fc l i s =>
    have hparams : args.params draws (.fc l i s) =
        (mlpFeeds draws .top (args.lnTop m) args.archMlpTop.length (.fc l i s)).or
          (mlpFeeds draws .bot args.archMlpBot (args.archMlpBot.length - 1) (.fc l i s)) := rfl
    have hin : (inputFeeds X sLengths sIndices args.archEmbeddingSize.length (.fc l i s) :
      Option (Value α m)) = none := rfl
    rw [createdFeeds, if_neg (by simp), if_neg (by simp), hin, Option.none_or, feeds,
      ← Option.or_assoc, ← hparams, hc]
    rfl
  | sls i s =>
    cases s <;> simp_all [createdFeeds, inputFeeds, feeds, mlpFeeds, tableFeeds, params]
  | int s => cases s <;> simp_all [createdFeeds, params, mlpFeeds]
  | _ => simp [params, mlpFeeds] at hc

theorem create_eq {ws : Workspace (Tensor α) m} {dlrm : Dlrm α m} (caffe2 : Caffe2 α m)
    (hbuilt : Built draws args ws dlrm) (X T : Tensor α) {sLengths sIndices : List (List ℕ)}
    (hlen : args.archEmbeddingSize.length ≤ sLengths.length)
    (hlen' : args.archEmbeddingSize.length ≤ sIndices.length) :
    ∃ ws', dlrm.create caffe2 X sLengths sIndices (some T) = (do
        caffe2.createNet (args.graph.map (rename Blob.name)) ws'
        return { dlrm with net := ⟨args.graph.map (rename Blob.name), ws'⟩ }) ∧
      ∀ c : Blob, ws' c.name =
        args.createdFeeds draws X T sLengths (tableIndices sIndices) c (ws c.name) := by
  have htables := hbuilt.length_embL
  obtain ⟨net, hloop, hops, hws⟩ := feedTables_spec X dlrm.net hlen hlen'
  obtain ⟨net', hnet'⟩ : ∃ net' : Net α m, net' =
    (net.feed "target" (.dense (T.map fun _ => 0))).feed ("interaction" ++ "_tril_indices")
      (trilValue args.archInteractionItself (args.archEmbeddingSize.length + 1)) := ⟨_, rfl⟩
  have hops' : net'.ops = args.graph.map (rename Blob.name) := by
    rw [hnet']
    exact hops.trans hbuilt.ops
  have hinput : dlrm.createInput X sLengths sIndices (some T) =
      .ok { dlrm with net := net.feed "target" (.dense (T.map fun _ => 0)) } := by
    rw [Dlrm.createInput, hbuilt.tags_eq, htables, hloop]
    rfl
  refine ⟨net'.ws, ?_, fun c => ?_⟩
  · rw [Dlrm.create, hinput, ← hops']
    change Dlrm.createModel caffe2 _ (some T) = _
    simp only [Dlrm.createModel, hbuilt.args_eq, hbuilt.tags_eq, htables]
    rw [← hnet']
  · rw [Args.createdFeeds, ← hbuilt.ws c, ← hws c, hnet']
    exact (Net.feed_name (.int .trilIndices) c _).trans
      (if_congr Iff.rfl rfl (Net.feed_name .target c _))

theorem length_le_of_create {caffe2 : Caffe2 α m} {dlrm dlrm' : Dlrm α m} {X T : Tensor α}
    {sLengths sIndices : List (List ℕ)}
    (h : dlrm.create caffe2 X sLengths sIndices (some T) = .ok dlrm') :
    dlrm.embL.length ≤ sLengths.length ∧ dlrm.embL.length ≤ sIndices.length := by
  obtain ⟨dlrm₁, hinput, -⟩ := bind_eq_ok h
  obtain ⟨net, hloop, -⟩ := bind_eq_ok hinput
  refine forLoop_ok (fun k _ => k ≤ sLengths.length ∧ k ≤ sIndices.length) hloop
    ⟨Nat.zero_le _, Nat.zero_le _⟩ ?_
  intro k hk net net' _ hbody
  rw [feedTable] at hbody
  split at hbody
  · rename_i l idx hl hidx
    exact ⟨(List.getElem?_eq_some_iff.mp hl).1, (List.getElem?_eq_some_iff.mp hidx).1⟩
  · cases hbody

/-- The network comes from `__init__` and `create`. -/
def Created (caffe2 : Caffe2 α m) (draws : Draws α) (args : Args) (dlrm : Dlrm α m) : Prop :=
  ∃ ws dlrm₀ X sLengths sIndices T, Dlrm.init draws args ws = .ok dlrm₀ ∧
    dlrm₀.create caffe2 X sLengths sIndices (some T) = .ok dlrm

theorem Created.ready {caffe2 : Caffe2 α m} {dlrm : Dlrm α m} (h : Created caffe2 draws args dlrm) :
    args.Fits m ∧ Ready draws caffe2 args dlrm := by
  obtain ⟨ws, dlrm₀, X, sLengths, sIndices, T, hinit, hcreate⟩ := h
  obtain ⟨hfits, hbuilt⟩ := init_spec draws hinit
  obtain ⟨hlen, hlen'⟩ := length_le_of_create hcreate
  rw [hbuilt.length_embL] at hlen hlen'
  obtain ⟨ws', heq, hws'⟩ := create_eq draws caffe2 hbuilt X T hlen hlen'
  rw [heq] at hcreate
  obtain ⟨u, hnet, hdlrm⟩ := bind_eq_ok hcreate
  cases hdlrm
  refine ⟨hfits, hbuilt.args_eq, hbuilt.tags_eq, hbuilt.embL, hbuilt.lastOutput, rfl,
    ⟨ws', hnet⟩, ?_⟩
  intro c v hc
  exact (hws' c).trans (args.createdFeeds_of_params draws X T sLengths _ hc _)

theorem create_eq_ok {caffe2 : Caffe2 α m} (hcaffe2 : caffe2.AcceptsComplete)
    {ws : Workspace (Tensor α) m} {dlrm : Dlrm α m} (hfits : args.Fits m)
    (hbuilt : Built draws args ws dlrm) (X T : Tensor α) {sLengths sIndices : List (List ℕ)}
    (hlen : args.archEmbeddingSize.length ≤ sLengths.length)
    (hlen' : args.archEmbeddingSize.length ≤ sIndices.length) :
    ∃ dlrm', dlrm.create caffe2 X sLengths sIndices (some T) = .ok dlrm' := by
  obtain ⟨ws', heq, hws'⟩ := create_eq draws caffe2 hbuilt X T hlen hlen'
  have hnet : caffe2.createNet (args.graph.map (rename Blob.name)) ws' = .ok () := by
    apply hcaffe2
    apply hfits.complete
    intro c hc
    rw [hws']
    exact args.isSome_createdFeeds draws X T _ hlen hc _
  rw [heq, hnet]
  exact ⟨_, rfl⟩

end Create

section Defaults

/-- The default arguments, up to `--sls_type`. -/
def defaultArgs (slsType : SlsType) : Args :=
  ⟨[4, 3, 2], [4, 2, 1], [4, 3, 2], .dot, false, slsType, false⟩

theorem defaultArgs_fits (slsType : SlsType) : (defaultArgs slsType).Fits 2 :=
  ⟨by simp [defaultArgs], by simp [defaultArgs], by simp [defaultArgs], by simp [defaultArgs],
    by simp [defaultArgs]⟩

theorem exists_created {args : Args} (h : args.Fits 2) :
    ∃ dlrm : Dlrm ℚ 2, Created (reference rational) (fun _ _ _ => 1) args dlrm := by
  obtain ⟨dlrm, hinit⟩ := h.init (fun _ _ _ => (1 : ℚ)) fun _ => none
  obtain ⟨dlrm', hcreate⟩ := create_eq_ok _ (reference_acceptsComplete rational) h
    (init_spec _ hinit).2 ⟨[], [], by simp⟩ ⟨[], [], by simp⟩
    (List.length_replicate (n := args.archEmbeddingSize.length) (a := [])).ge
    (List.length_replicate (n := args.archEmbeddingSize.length) (a := [])).ge
  exact ⟨dlrm', _, dlrm, _, _, _, _, hinit, hcreate⟩

end Defaults

end EbpfIsp.Network
