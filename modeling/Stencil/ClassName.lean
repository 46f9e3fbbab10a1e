import Stencil.Digest.Sha256
import Stencil.ModelType
import Stencil.Text.Name

/-!
Names of template classes. A class name is a name; the one that is derived from a template's key and its
model type is the same for the same key and model type name.
-/

namespace Stencil

/-- The name of a template class. -/
structure ClassName where
  text : String
  isName : Text.isName text.toList = true
deriving DecidableEq

namespace ClassName

/-- The class name with a text, if the text is a name. -/
def ofText? (text : String) : Option ClassName :=
  if h : Text.isName text.toList = true then some ⟨text, h⟩ else none

/-- What every derived class name starts with. -/
def start : String := "Template_"

/-- The digest that tells derived class names apart. -/
def derivedDigest (key : String) (model : ModelType) : List Char :=
  ((Sha256.digest (key.toUTF8.toList ++ 0 :: model.name.toUTF8.toList)).flatMap Text.hexByte).take 16

theorem isNameChar_of_mem_hexByte {b : UInt8} {c : Char} (h : c ∈ Text.hexByte b) :
    Text.isNameChar c = true := by
  have digit : ∀ n < 16, Text.isNameChar (Text.hexDigit n) = true := by decide
  have hb : b.toNat < 256 := b.toNat_lt
  simp only [Text.hexByte, List.mem_cons, List.not_mem_nil, or_false] at h
  rcases h with rfl | rfl
  · exact digit _ (by omega)
  · exact digit _ (by omega)

theorem isName_start_append {cs : List Char} (h : ∀ c ∈ cs, Text.isNameChar c = true) :
    Text.isName (start.toList ++ cs) = true := by
  have hs : start.toList = 'T' :: "emplate_".toList := by decide
  rw [hs, List.cons_append, Text.isName, Bool.and_eq_true, List.all_eq_true]
  refine ⟨by decide, fun c hc => ?_⟩
  rcases List.mem_append.mp hc with hc | hc
  · exact List.all_eq_true.mp (by decide : "emplate_".toList.all Text.isNameChar = true) c hc
  · exact h c hc

/-- The class name derived from a template's key and model type. -/
def forTemplate (key : String) (model : ModelType) : ClassName where
  text := start ++ String.ofList (derivedDigest key model)
  isName := by
    rw [String.toList_append, String.toList_ofList]
    refine isName_start_append fun c hc => ?_
    obtain ⟨b, -, hb⟩ := List.mem_flatMap.mp (List.mem_of_mem_take hc)
    exact isNameChar_of_mem_hexByte hb

end ClassName

end Stencil
