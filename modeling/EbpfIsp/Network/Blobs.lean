import EbpfIsp.Network.Build

/-! # Names of the blobs

The layers are connected by the names of their blobs, which are put together
from the tags of the layers, a number and a suffix. With the default tags no
two blobs have the same name.
-/

namespace EbpfIsp.Network

inductive Mlp where
  | bot
  | top
  deriving DecidableEq

inductive FcBlob where
  | w
  | b
  | y
  | z
  deriving DecidableEq

inductive SlsBlob where
  | l
  | i
  | w
  | z
  deriving DecidableEq

inductive IntBlob where
  | out
  | info
  | catAxis0
  | infoCatAxis0
  | matmul
  | flattenAll
  | trilIndices
  | flatten
  deriving DecidableEq

inductive Blob where
  | fc (l : Mlp) (i : ℕ) (k : FcBlob)
  | sls (i : ℕ) (k : SlsBlob)
  | int (k : IntBlob)
  | denseIn
  | denseOut
  | probClick
  | target
  deriving DecidableEq

def Mlp.tag : Mlp → String
  | bot => "bot"
  | top => "top"

def FcBlob.suffix : FcBlob → String
  | w => "_w"
  | b => "_b"
  | y => "_y"
  | z => "_z"

def SlsBlob.suffix : SlsBlob → String
  | l => "_l"
  | i => "_i"
  | w => "_w"
  | z => "_z"

def IntBlob.suffix : IntBlob → String
  | out => ""
  | info => "_info"
  | catAxis0 => "_cat_axis0"
  | infoCatAxis0 => "_info_cat_axis0"
  | matmul => "_matmul"
  | flattenAll => "_flatten_all"
  | trilIndices => "_tril_indices"
  | flatten => "_flatten"

/-- The name of a blob under the default tags. -/
def Blob.name : Blob → String
  | fc l i k => l.tag ++ ":::" ++ "fc" ++ toString i ++ k.suffix
  | sls i k => slsTag "emb" i k.suffix
  | int k => "interaction" ++ k.suffix
  | denseIn => "dense_in"
  | denseOut => "dense_out"
  | probClick => "prob_click"
  | target => "target"

theorem FcBlob.suffix_injective : Function.Injective FcBlob.suffix := by
  intro k k' h
  cases k <;> cases k' <;> first | rfl | simp [suffix] at h

theorem SlsBlob.suffix_injective : Function.Injective SlsBlob.suffix := by
  intro k k' h
  cases k <;> cases k' <;> first | rfl | simp [suffix] at h

theorem IntBlob.suffix_injective : Function.Injective IntBlob.suffix := by
  intro k k' h
  cases k <;> cases k' <;> first | rfl | simp [suffix] at h

theorem FcBlob.length_suffix (k : FcBlob) : k.suffix.toList.length = 2 := by
  cases k <;> simp [suffix]

theorem SlsBlob.length_suffix (k : SlsBlob) : k.suffix.toList.length = 2 := by
  cases k <;> simp [suffix]

theorem Mlp.length_tag (l : Mlp) : (l.tag ++ ":::" ++ "fc").toList.length = 8 := by
  cases l <;> simp [tag]

theorem toDigits_injective : Function.Injective (Nat.toDigits 10) := by
  intro i j h
  have hparse := congrArg (fun ds => Nat.ofDigitChars 10 ds 0) h
  simpa using hparse

theorem numbered_inj {p p' s s' : String} (hp : p.toList.length = p'.toList.length)
    (hs : s.toList.length = s'.toList.length) {i j : ℕ}
    (h : p ++ toString i ++ s = p' ++ toString j ++ s') : p = p' ∧ i = j ∧ s = s' := by
  have hlist := congrArg String.toList h
  simp only [String.toList_append, Nat.toString_eq_repr, Nat.toList_repr] at hlist
  obtain ⟨hfront, hback⟩ := List.append_inj' hlist hs
  obtain ⟨hleft, hdigits⟩ := List.append_inj hfront hp
  exact ⟨String.toList_inj.mp hleft, toDigits_injective hdigits, String.toList_inj.mp hback⟩

/-- The first two characters tell the layers apart. -/
def Blob.lead : Blob → List Char
  | fc .bot _ _ => ['b', 'o']
  | fc .top _ _ => ['t', 'o']
  | sls _ _ => ['e', 'm']
  | int _ => ['i', 'n']
  | denseIn | denseOut => ['d', 'e']
  | probClick => ['p', 'r']
  | target => ['t', 'a']

theorem Blob.take_name (c : Blob) : c.name.toList.take 2 = c.lead := by
  cases c with
  | fc l i k => cases l <;> simp [name, lead, Mlp.tag]
  | _ => simp [name, lead, slsTag]

theorem Blob.name_injective : Function.Injective Blob.name := by
  intro c c' h
  have hlead : c.lead = c'.lead := by rw [← take_name, ← take_name, h]
  cases c with
  | fc l i k =>
    cases c' with
    | fc l' i' k' =>
      obtain ⟨-, rfl, hs⟩ := numbered_inj (l.length_tag.trans l'.length_tag.symm)
        (k.length_suffix.trans k'.length_suffix.symm) h
      obtain rfl : l = l' := by cases l <;> cases l' <;> first | rfl | cases hlead
      rw [FcBlob.suffix_injective hs]
    | _ => cases l <;> cases hlead
  | sls i k =>
    cases c' with
    | sls i' k' =>
      obtain ⟨-, rfl, hs⟩ := numbered_inj rfl (k.length_suffix.trans k'.length_suffix.symm) h
      rw [SlsBlob.suffix_injective hs]
    | fc l' i' k' => cases l' <;> cases hlead
    | _ => cases hlead
  | int k =>
    cases c' with
    | int k' => rw [IntBlob.suffix_injective ((String.append_right_inj _).mp h)]
    | fc l' i' k' => cases l' <;> cases hlead
    | _ => cases hlead
  | _ =>
    cases c' with
    | fc l' i' k' => cases l' <;> cases hlead
    | sls i' k' => cases hlead
    | int k' => cases hlead
    | _ => first | rfl | simp [name] at h

end EbpfIsp.Network
