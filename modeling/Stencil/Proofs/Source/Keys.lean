import Stencil.Engine.Basic
import Stencil.Source.Memory

/-! Keys that normalizing leaves as they are.

Normalizing takes blanks, one tilde and slashes off the front of a text, once each and in this order, so that a tilde or
a blank can be left there. Such a key normalizes to another one, or to none: what is stored under it is not found
again under it, and a template with it is not recognised. -/

namespace Stencil

namespace TemplateKey

/-- The key starts with none of the marks that normalizing takes off. A normalized key starts with no slash. -/
def isSettled (key : String) : Bool := !key.toList.head?.any fun c => c == '~' || Text.isBlank c

/-! ### Texts without the marks of the root -/

section
variable {cs : List Char} {c : Char} {key n : String}

theorem dropTilde_suffix (cs : List Char) : dropTilde cs <:+ cs := by
  unfold dropTilde
  split
  · exact List.suffix_cons _ _
  · exact List.suffix_refl _

theorem bare_suffix (cs : List Char) : bare cs <:+ Text.trim cs :=
  (List.dropWhile_suffix _).trans (dropTilde_suffix _)

theorem bare_head? (h : (bare cs).head? = some c) : c ≠ '/' := by
  rintro rfl
  have hslash := List.head?_dropWhile_not (· == '/') (dropTilde (Text.trim cs))
  rw [← bare, h] at hslash
  cases hslash

/-- Nothing is taken off the end but blanks. -/
theorem bare_getLast? (h : (bare cs).getLast? = some c) : Text.isBlank c = false := by
  obtain ⟨front, hfront⟩ := bare_suffix cs
  refine @Text.isBlank_of_getLast?_trim cs c ?_
  rw [← hfront, List.getLast?_append, h]
  rfl

/-- A text that no blank ends and that starts with none of the marks stays as it is. -/
theorem bare_of_ends (hlast : ∀ c ∈ cs.getLast?, Text.isBlank c = false)
    (hhead : ∀ c ∈ cs.head?, Text.isBlank c = false ∧ c ≠ '~' ∧ c ≠ '/') : bare cs = cs := by
  rw [bare, Text.trim_of_ends (fun c hc => (hhead c hc).1) hlast]
  cases cs with
  | nil => rfl
  | cons d ds =>
    obtain ⟨-, htilde, hslash⟩ := hhead d rfl
    have hdrop : dropTilde (d :: ds) = d :: ds := by
      unfold dropTilde
      split
      · rename_i heq
        exact absurd (List.cons.inj heq).1 htilde
      · rfl
    rw [hdrop, List.dropWhile_cons_of_neg (by simpa using hslash)]

/-- A text that stays as it is starts with none of the marks. -/
theorem head?_of_bare_eq (h : bare cs = cs) (hc : cs.head? = some c) : Text.isBlank c = false ∧ c ≠ '~' := by
  have hlength : cs.length ≤ (Text.trim cs).length := by
    have := (bare_suffix cs).length_le
    rwa [h] at this
  have htrim : Text.trim cs = cs := by
    obtain ⟨before, after, hcs, -⟩ := Text.exists_trim cs
    have hinfix : Text.trim cs <:+: cs := ⟨before, after, hcs.symm⟩
    exact hinfix.sublist.eq_of_length_le hlength
  refine ⟨@Text.isBlank_of_head?_trim cs c (htrim.symm ▸ hc), ?_⟩
  rintro rfl
  obtain ⟨ds, rfl⟩ : ∃ ds, cs = '~' :: ds := by
    cases cs with
    | nil => cases hc
    | cons d ds => exact ⟨ds, by rw [Option.some.inj hc]⟩
  have hshort := (List.dropWhile_suffix (· == '/') (l := ds)).length_le
  rw [bare, htrim, dropTilde] at h
  rw [h, List.length_cons] at hshort
  omega

/-! ### Normalized keys -/

theorem normalize_eq_ok : normalize key = .ok n ↔ fault? (bare key.toList) = none ∧ n = String.ofList (bare key.toList) := by
  unfold normalize
  dsimp only
  cases fault? (bare key.toList) with
  | some fault => simp
  | none => simp [eq_comm]

/-- A normalized key normalizes to itself exactly if it starts with none of the marks. -/
theorem normalize_normalized (h : normalize key = .ok n) : normalize n = .ok n ↔ isSettled n = true := by
  obtain ⟨hfault, rfl⟩ := normalize_eq_ok.mp h
  rw [normalize_eq_ok, isSettled, String.toList_ofList]
  constructor
  · rintro ⟨-, hsame⟩
    have hbare : bare (bare key.toList) = bare key.toList := (String.ofList_injective hsame).symm
    rw [Bool.not_eq_true', Option.any_eq_false]
    intro c hc
    obtain ⟨hblank, htilde⟩ := head?_of_bare_eq hbare hc
    simp [hblank, htilde]
  · intro hsettled
    have hbare : bare (bare key.toList) = bare key.toList := by
      refine bare_of_ends (fun c hc => bare_getLast? hc) fun c hc => ?_
      rw [Bool.not_eq_true', Option.any_eq_false] at hsettled
      obtain ⟨htilde, hblank⟩ : ¬c = '~' ∧ Text.isBlank c = false := by simpa using hsettled c hc
      exact ⟨hblank, htilde, bare_head? hc⟩
    rw [hbare]
    exact ⟨hfault, rfl⟩

/-- A template that is added under a text is found there with its normalized key. It is found under that key, and a
layout of that name is recognised as the template itself, exactly if the key is settled; under any other normalized key
is what was there before. -/
theorem normalized_keys (h : normalize key = .ok n) :
    (normalize n = .ok n ↔ isSettled n = true) ∧
    (∀ (s : MemorySource) (content : String), ∃ s', s.insert key content = .ok s' ∧
      s'.provider.item key = .ok ⟨n, .text content, none⟩ ∧
      s'.provider.item n = if isSettled n then .ok ⟨n, .text content, none⟩ else s.provider.item n) ∧
    ∀ (t : CompiledTemplate) (layout : String), t.template = n → t.layout = some layout →
      t.module.layoutInherited = true → normalize layout = .ok n →
        Engine.layoutToFollow t .page = if isSettled n then none else some layout := by
  have hsame := normalize_normalized h
  refine ⟨hsame, fun s content => ?_, ?_⟩
  · obtain ⟨s', hs'⟩ := s.insert_ok content h
    have hfound := MemorySource.lookup_of_find? (MemorySource.find?_insert hs' h)
    refine ⟨s', hs', by rw [s'.provider_item h, hfound], ?_⟩
    split
    · rename_i hsettled
      rw [s'.provider_item (hsame.mpr hsettled), hfound]
    · -- Normalizing the normal key gives another key or none, so the insertion is not seen under it.
      rename_i hsettled
      rcases hagain : normalize n with fault | other
      · rw [s'.provider_invalid hagain, s.provider_invalid hagain]
      · have hne : other ≠ n := by
          rintro rfl
          exact hsettled (hsame.mp hagain)
        rw [s'.provider_item hagain, s.provider_item hagain, MemorySource.lookup, MemorySource.lookup,
          MemorySource.find?_insert_ne hs' h hne]
  · rintro t layout rfl hlayout hinherited hitself
    have hnames : Engine.namesItself layout t.template = isSettled t.template := by
      unfold Engine.namesItself
      rw [hitself]
      rcases hagain : normalize t.template with fault | other
      · exact (Bool.eq_false_iff.mpr fun hsettled => by rw [hsame.mpr hsettled] at hagain; cases hagain).symm
      · rw [Bool.eq_iff_iff, ← hsame, hagain, beq_iff_eq, Except.ok.injEq]
        exact eq_comm
    rw [Engine.layoutToFollow, hlayout, Option.filter_some, hinherited, hnames]
    cases isSettled t.template <;> rfl

/-- Behind two tildes a key has one left, which normalizing it again takes off. -/
theorem normalized_keys_tilde : normalize "~~a" = .ok "~a" ∧ isSettled "~a" = false ∧ normalize "~a" ≠ .ok "~a" ∧
    ∀ s : MemorySource, ∃ s', s.insert "~~a" "x" = .ok s' ∧ s'.provider.item "~~a" = .ok ⟨"~a", .text "x", none⟩ ∧
      s'.provider.item "~a" = s.provider.item "~a" := by
  have hkey : normalize "~~a" = .ok "~a" := by rfl
  have hsettled : isSettled "~a" = false := by decide +kernel
  obtain ⟨hsame, hinsert, -⟩ := normalized_keys hkey
  rw [hsettled] at hsame hinsert
  exact ⟨hkey, hsettled, fun h => Bool.noConfusion (hsame.mp h), fun s => hinsert s "x"⟩

end

end TemplateKey

end Stencil
