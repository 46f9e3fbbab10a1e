import Mathlib.Data.String.Basic
import Stencil.Proofs.Json.Nesting

/-! Values that come back from their texts unchanged.

A value is exact if its numbers are integers in the reader's range and the names of every object in it increase. Its
text is read as the value itself, and the value is its own canonical form. -/

namespace Stencil.Json

/-- The numbers are integers in the reader's range, and the names of every object increase. -/
inductive Exact : Json → Prop
  | null : Exact null
  | bool (b : Bool) : Exact (bool b)
  | number {n : Int} (hlow : -2 ^ 63 ≤ n) (hhigh : n < 2 ^ 64) : Exact (number (.int n))
  | string (s : String) : Exact (string s)
  | array {items : List Json} (hi : ∀ v ∈ items, Exact v) : Exact (array items)
  | object {members : List (String × Json)} (hn : (members.map (·.1)).Pairwise (· < ·))
      (hm : ∀ m ∈ members, Exact m.2) : Exact (object members)

/-! ### Reading back -/

theorem rereadItems?_eq_some {vs : List Json} (h : ∀ v ∈ vs, v.reread? = some v) : rereadItems? vs = some vs := by
  induction vs with
  | nil => rfl
  | cons v vs ih =>
    rw [rereadItems?, h v List.mem_cons_self, ih fun w hw => h w (List.mem_cons_of_mem _ hw)]
    rfl

theorem rereadMembers?_eq_some {ms : List (String × Json)} (h : ∀ m ∈ ms, m.2.reread? = some m.2) :
    rereadMembers? ms = some ms := by
  induction ms with
  | nil => rfl
  | cons m ms ih =>
    obtain ⟨name, v⟩ := m
    rw [rereadMembers?, h (name, v) List.mem_cons_self, ih fun n hn => h n (List.mem_cons_of_mem _ hn)]
    rfl

/-- An exact value comes back as it is. -/
theorem Exact.reread? {v : Json} (h : v.Exact) : v.reread? = some v := by
  induction h with
  | null | bool | string => rfl
  | number hlow hhigh => rw [Json.reread?, Number.reread?_int hlow hhigh, Option.map_some]
  | array _ ih => rw [Json.reread?, rereadItems?_eq_some ih, Option.map_some]
  | object _ _ ih => rw [Json.reread?, rereadMembers?_eq_some ih, Option.map_some]

/-! ### Canonical forms -/

theorem canonicalItems_eq {vs : List Json} (h : ∀ v ∈ vs, v.canonical = v) : canonicalItems vs = vs := by
  induction vs with
  | nil => rfl
  | cons v vs ih =>
    rw [canonicalItems, h v List.mem_cons_self, ih fun w hw => h w (List.mem_cons_of_mem _ hw)]

/-- A member whose name is above all others goes to the end. -/
theorem insertMember_of_lt {name : String} (v : Json) {done : List (String × Json)} (h : ∀ m ∈ done, m.1 < name) :
    insertMember name v done = done ++ [(name, v)] := by
  induction done with
  | nil => rfl
  | cons m done ih =>
    obtain ⟨n, w⟩ := m
    have hlt : n < name := h (n, w) List.mem_cons_self
    rw [insertMember, if_neg (lt_asymm hlt), if_neg (ne_of_gt hlt), ih fun m hm => h m (List.mem_cons_of_mem _ hm),
      List.cons_append]

theorem canonicalMembers_eq {done ms : List (String × Json)} (hn : ((done ++ ms).map (·.1)).Pairwise (· < ·))
    (h : ∀ m ∈ ms, m.2.canonical = m.2) : canonicalMembers done ms = done ++ ms := by
  induction ms generalizing done with
  | nil => rw [canonicalMembers, List.append_nil]
  | cons m ms ih =>
    obtain ⟨name, v⟩ := m
    have hlt : ∀ m ∈ done, m.1 < name := by
      rw [List.map_append, List.pairwise_append] at hn
      exact fun m hm => hn.2.2 m.1 (List.mem_map_of_mem hm) name List.mem_cons_self
    rw [List.append_cons] at hn
    rw [canonicalMembers, h (name, v) List.mem_cons_self, insertMember_of_lt v hlt,
      ih hn fun m hm => h m (List.mem_cons_of_mem _ hm), ← List.append_cons]

/-- An exact value is canonical. -/
theorem Exact.canonical {v : Json} (h : v.Exact) : v.canonical = v := by
  induction h with
  | null | bool | number | string => rfl
  | array _ ih => rw [Json.canonical, canonicalItems_eq ih]
  | @object members hn _ ih =>
    have hmembers : canonicalMembers [] members = [] ++ members := canonicalMembers_eq hn ih
    rw [Json.canonical, hmembers, List.nil_append]

end Stencil.Json
