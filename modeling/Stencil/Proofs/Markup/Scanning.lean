import Mathlib.Data.Bool.AllAny
import Stencil.Markup.Nesting
import Stencil.Markup.Parser

/-! What delimiting embedded code makes sure of.

Reading code keeps track of the brackets that are open and of the literal that is open, if any. Code is closed if
reading it leaves nothing open and closes nothing that was open before. What stands between brackets is closed, and so
are its pieces between semicolons and what a search outside brackets cuts off. -/

namespace Stencil.Markup

/-- The character neither opens nor closes anything. -/
def IsPlain (c : Char) : Prop := c ≠ '"' ∧ closerOf? c = none ∧ isCloser c = false

instance (c : Char) : Decidable (IsPlain c) := inferInstanceAs (Decidable (_ ∧ _))

theorem isPlain_of_all {cs : List Char} (h : cs.all (fun c => decide (IsPlain c)) = true) : ∀ c ∈ cs, IsPlain c :=
  fun c hc => of_decide_eq_true (List.all_eq_true.mp h c hc)

theorem closerOf?_eq_none {c : Char} (h : isCloser c = true) : closerOf? c = none := by
  simp only [isCloser, Bool.or_eq_true, beq_iff_eq] at h
  rcases h with (rfl | rfl) | rfl <;> rfl

/-- Whether code is read outside literals, inside one, or after a backslash inside one. -/
inductive Spot
  | code
  | literal
  | escaped
deriving DecidableEq

/-- The mode of a scan apart from places. -/
def Mode.spot : Mode → Spot
  | .code => .code
  | .literal _ => .literal
  | .escaped _ => .escaped

/-- What is open in code: the closing brackets that are awaited, innermost first, and the spot. -/
structure Scan where
  awaited : List Char := []
  spot : Spot := .code
deriving DecidableEq

namespace Scan

/-- What is open after one more character; nothing if the character closes what is not open. -/
def step? (s : Scan) (c : Char) : Option Scan :=
  match s.spot with
  | .code =>
    if c = '"' then some { s with spot := .literal }
    else match closerOf? c with
      | some close => some { s with awaited := close :: s.awaited }
      | none =>
        if isCloser c then match s.awaited with
          | [] => none
          | e :: outer => if e = c then some { s with awaited := outer } else none
        else some s
  | .literal =>
    if c = '\\' then some { s with spot := .escaped }
    else if c = '"' then some { s with spot := .code }
    else if c = '\n' then none
    else some s
  | .escaped => some { s with spot := .literal }

/-- What is open after more code. -/
def after? (s : Scan) (cs : List Char) : Option Scan := cs.foldlM step? s

variable {s t : Scan} {c : Char} {cs ds : List Char}

@[simp] theorem after?_nil : s.after? [] = some s := rfl

@[simp] theorem after?_cons : s.after? (c :: cs) = (s.step? c).bind fun t => t.after? cs := rfl

theorem after?_append : s.after? (cs ++ ds) = (s.after? cs).bind fun t => t.after? ds := List.foldlM_append

theorem after?_append_of (h : s.after? cs = some t) : s.after? (cs ++ ds) = t.after? ds := by
  rw [after?_append, h, Option.bind_some]

theorem after?_eq_some_of_append {u : Scan} (h : s.after? (cs ++ ds) = some u) :
    ∃ t, s.after? cs = some t ∧ t.after? ds = some u := by
  rw [after?_append] at h
  exact Option.bind_eq_some_iff.mp h

/-- The ways to read one character. -/
inductive Step : Scan → Char → Scan → Prop
  | quote {awaited : List Char} : Step ⟨awaited, .code⟩ '"' ⟨awaited, .literal⟩
  | opens {awaited : List Char} {o e : Char} (ho : closerOf? o = some e) : Step ⟨awaited, .code⟩ o ⟨e :: awaited, .code⟩
  | closes {awaited : List Char} {e : Char} (he : isCloser e = true) : Step ⟨e :: awaited, .code⟩ e ⟨awaited, .code⟩
  | plain {awaited : List Char} {c : Char} (hc : IsPlain c) : Step ⟨awaited, .code⟩ c ⟨awaited, .code⟩
  | backslash {awaited : List Char} : Step ⟨awaited, .literal⟩ '\\' ⟨awaited, .escaped⟩
  | unquote {awaited : List Char} : Step ⟨awaited, .literal⟩ '"' ⟨awaited, .code⟩
  | inside {awaited : List Char} {c : Char} (hb : c ≠ '\\') (hq : c ≠ '"') (hn : c ≠ '\n') :
    Step ⟨awaited, .literal⟩ c ⟨awaited, .literal⟩
  | escaped {awaited : List Char} {c : Char} : Step ⟨awaited, .escaped⟩ c ⟨awaited, .literal⟩

theorem Step.of_step? (h : s.step? c = some t) : Step s c t := by
  obtain ⟨awaited, spot⟩ := s
  unfold step? at h
  cases spot with
  | code =>
    dsimp only at h
    split at h
    · rename_i hq
      cases h
      exact hq ▸ .quote
    · rename_i hq
      split at h
      · rename_i ho
        cases h
        exact .opens ho
      · rename_i ho
        split at h
        · rename_i hc
          split at h
          · cases h
          · split at h
            · rename_i he
              cases h
              exact he ▸ .closes (he.symm ▸ hc)
            · cases h
        · rename_i hc
          cases h
          exact .plain ⟨hq, ho, by simpa using hc⟩
  | literal =>
    dsimp only at h
    split at h
    · rename_i hb
      cases h
      exact hb ▸ .backslash
    · rename_i hb
      split at h
      · rename_i hq
        cases h
        exact hq ▸ .unquote
      · rename_i hq
        split at h
        · cases h
        · rename_i hn
          cases h
          exact .inside hb hq hn
  | escaped =>
    cases h
    exact .escaped

theorem Step.step? (h : Step s c t) : s.step? c = some t := by
  cases h with
  | quote | backslash | unquote | escaped => rfl
  | opens ho => simp [Scan.step?, opener_ne_quote ho, ho]
  | closes he =>
    have ho := closerOf?_eq_none he
    simp [Scan.step?, closer_ne_quote he, ho, he]
  | plain hc => simp [Scan.step?, hc.1, hc.2.1, hc.2.2]
  | inside hb hq hn => simp [Scan.step?, hb, hq, hn]

/-- Brackets that are open around code make no difference to it. -/
theorem step?_around (h : s.step? c = some t) (outer : List Char) :
    Scan.step? ⟨s.awaited ++ outer, s.spot⟩ c = some ⟨t.awaited ++ outer, t.spot⟩ := by
  refine Step.step? ?_
  cases Step.of_step? h with
  | quote => exact .quote
  | opens ho => exact .opens ho
  | closes he => exact .closes he
  | plain hc => exact .plain hc
  | backslash => exact .backslash
  | unquote => exact .unquote
  | inside hb hq hn => exact .inside hb hq hn
  | escaped => exact .escaped

theorem after?_around (h : s.after? cs = some t) (outer : List Char) :
    after? ⟨s.awaited ++ outer, s.spot⟩ cs = some ⟨t.awaited ++ outer, t.spot⟩ := by
  induction cs generalizing s with
  | nil =>
    cases h
    rfl
  | cons c cs ih =>
    obtain ⟨u, hc, hu⟩ := Option.bind_eq_some_iff.mp h
    rw [after?_cons, step?_around hc, Option.bind_some, ih hu]

end Scan

/-! ### Plain characters -/

theorem Scan.step?_plain {c : Char} (hc : IsPlain c) (awaited : List Char) :
    Scan.step? ⟨awaited, .code⟩ c = some ⟨awaited, .code⟩ := by
  exact (Scan.Step.plain hc).step?

theorem Scan.after?_plain {cs : List Char} (h : ∀ c ∈ cs, IsPlain c) (awaited : List Char) :
    Scan.after? ⟨awaited, .code⟩ cs = some ⟨awaited, .code⟩ := by
  induction cs with
  | nil => rfl
  | cons c cs ih =>
    rw [after?_cons, step?_plain (h c List.mem_cons_self), Option.bind_some]
    exact ih fun d hd => h d (List.mem_cons_of_mem _ hd)

theorem isPlain_of {p : Char → Bool} (h : "\"()[]\x7b\x7d".toList.any p = false) {c : Char} (hc : p c = true) :
    IsPlain c := by
  have hne : ∀ d ∈ "\"()[]\x7b\x7d".toList, c ≠ d := by
    rintro d hd rfl
    exact List.any_eq_false.mp h c hd hc
  refine ⟨hne _ (by decide), ?_, ?_⟩
  · unfold closerOf?
    split
    · exact absurd rfl (hne '(' (by decide))
    · exact absurd rfl (hne '[' (by decide))
    · exact absurd rfl (hne '\x7b' (by decide))
    · rfl
  · simp [isCloser, hne ')' (by decide), hne ']' (by decide), hne '\x7d' (by decide)]

theorem isPlain_of_isBlank {c : Char} (h : Text.isBlank c = true) : IsPlain c :=
  isPlain_of (by decide) h

theorem isPlain_of_isNameChar {c : Char} (h : Text.isNameChar c = true) : IsPlain c :=
  isPlain_of (by decide) h

/-- Blanks close nothing. -/
theorem Scan.eq_of_after?_blanks {s : Scan} {bs : List Char} (hb : Text.allBlank bs = true)
    (h : s.after? bs = some {}) : s = {} := by
  induction bs generalizing s with
  | nil => exact Option.some.inj h
  | cons b bs ih =>
    simp only [Text.allBlank, List.all_cons, Bool.and_eq_true] at hb
    obtain ⟨u, hs, hu⟩ := Option.bind_eq_some_iff.mp h
    have hu := ih hb.2 hu
    subst hu
    cases Step.of_step? hs with
    | plain => rfl
    | closes he => exact absurd he (by simp [(isPlain_of_isBlank hb.1).2.2])
    | unquote => exact absurd hb.1 (by decide)

/-! ### Closed code -/

/-- Code that closes all that it opens, and nothing else. -/
def Closed (cs : List Char) : Prop := ({} : Scan).after? cs = some {}

/-- No semicolon stands outside the brackets and the literals of the code. -/
def Sealed (cs : List Char) : Prop := ∀ u v, cs = u ++ ';' :: v → ¬Closed u

section
variable {c : Char} {cs ds : List Char}

theorem Closed.append (hc : Closed cs) (hd : Closed ds) : Closed (cs ++ ds) :=
  (Scan.after?_append_of hc).trans hd

theorem Closed.of_append (hc : Closed cs) (h : Closed (cs ++ ds)) : Closed ds :=
  (Scan.after?_append_of hc).symm.trans h

theorem closed_plain (h : ∀ c ∈ cs, IsPlain c) : Closed cs := Scan.after?_plain h []

theorem Sealed.left (h : Sealed (cs ++ ds)) : Sealed cs := fun u v hu =>
  h u (v ++ ds) (by rw [hu, List.append_assoc, List.cons_append])

theorem Sealed.right (hc : Closed cs) (h : Sealed (cs ++ ds)) : Sealed ds := fun u v hu hcl =>
  h (cs ++ u) v (by rw [hu, List.append_assoc]) (hc.append hcl)

theorem sealed_of_not_mem (h : ';' ∉ cs) : Sealed cs := fun u v hu => absurd (by simp [hu]) h

theorem Sealed.append (hc : Closed cs) (hs : Sealed cs) (hd : Sealed ds) : Sealed (cs ++ ds) := by
  intro u v hu hcl
  rcases List.append_eq_append_iff.mp hu with ⟨w, rfl, rfl⟩ | ⟨w, rfl, hw⟩
  · exact hd w v rfl (hc.of_append hcl)
  · cases w with
    | nil =>
      rw [List.nil_append] at hw
      exact hd [] v hw.symm rfl
    | cons x w =>
      cases hw
      exact hs u w rfl hcl

theorem closed_parens (h : Closed cs) : Closed ('(' :: cs ++ [')']) := by
  have hin := Scan.after?_around h [')']
  show ({} : Scan).after? ('(' :: (cs ++ [')'])) = some {}
  exact (Scan.after?_append_of hin).trans rfl

/-- Every semicolon between brackets stands inside them. -/
theorem sealed_parens (h : Closed cs) : Sealed ('(' :: cs ++ [')']) := by
  intro u v hu hcl
  cases u with
  | nil => cases hu
  | cons x u =>
    obtain ⟨rfl, hin⟩ : x = '(' ∧ cs ++ [')'] = u ++ ';' :: v := by
      injection hu with hx hu
      exact ⟨hx.symm, hu⟩
    rcases List.append_eq_append_iff.mp hin with ⟨w, rfl, hw⟩ | ⟨w, rfl, -⟩
    · cases w with
      | nil => cases hw
      | cons y w =>
        rw [List.cons_append] at hw
        exact absurd (List.cons.inj hw).2.symm (by simp)
    · obtain ⟨s, hs, -⟩ := Scan.after?_eq_some_of_append h
      have hin := Scan.after?_around hs [')']
      have : some (⟨s.awaited ++ [')'], s.spot⟩ : Scan) = some {} := hin.symm.trans hcl
      injection this with this
      injection this with this
      simp at this

end

/-! ### Regions -/

/-- The first character of a region ends it, if nothing else is open, or is read as code is read, and the rest of the
region stands behind it. -/
inductive RegionStep (stack : List Char) (e : Char) (mode : Mode) (pos : SourcePos) (c : Char) (cs : List Char) :
    List Char → Cursor → Prop
  | ends (hs : stack = []) (hm : mode.spot = .code) (hc : c = e) : RegionStep stack e mode pos c cs [] ⟨cs, pos.next c⟩
  | goesOn {stack' inner : List Char} {mode' : Mode} {d : Cursor}
      (hread : scanRegion (stack' ++ [e]) mode' (pos.next c) cs = .ok (inner, d))
      (hstep : Scan.step? ⟨stack, mode.spot⟩ c = some ⟨stack', mode'.spot⟩) : RegionStep stack e mode pos c cs (c :: inner) d

theorem RegionStep.of_scanRegion {stack cs inner : List Char} {c e : Char} {mode : Mode} {pos : SourcePos} {d : Cursor}
    (h : scanRegion (stack ++ [e]) mode pos (c :: cs) = .ok (inner, d)) : RegionStep stack e mode pos c cs inner d := by
  have went : ∀ (stack' : List Char) (mode' : Mode),
      (scanRegion (stack' ++ [e]) mode' (pos.next c) cs).map (fun r => (c :: r.1, r.2)) = .ok (inner, d) →
      Scan.step? ⟨stack, mode.spot⟩ c = some ⟨stack', mode'.spot⟩ → RegionStep stack e mode pos c cs inner d := by
    intro stack' mode' hread hstep
    cases hr : scanRegion (stack' ++ [e]) mode' (pos.next c) cs with
    | error x =>
      rw [hr] at hread
      cases hread
    | ok r =>
      rw [hr] at hread
      cases hread
      exact .goesOn hr hstep
  unfold scanRegion at h
  cases mode with
  | code =>
    dsimp only at h
    split at h
    · rename_i hq
      exact went _ _ h (by simp [Scan.step?, Mode.spot, hq])
    · rename_i hq
      split at h
      · rename_i close ho
        exact went (close :: stack) .code h (by simp [Scan.step?, Mode.spot, hq, ho])
      · rename_i ho
        split at h
        · rename_i hcl
          -- Below the brackets opened in the region there is the one that opens it, and its closer ends the region.
          cases stack with
          | nil =>
            dsimp only [List.nil_append] at h
            split at h
            · cases h
            · rename_i he
              cases h
              exact .ends rfl rfl (Decidable.not_not.mp he).symm
          | cons x stack =>
            dsimp only [List.cons_append] at h
            split at h
            · cases h
            · rename_i he
              rw [if_neg (by simp)] at h
              exact went _ .code h (by simp [Scan.step?, Mode.spot, hq, ho, hcl, Decidable.not_not.mp he])
        · rename_i hcl
          exact went _ .code h (by simp [Scan.step?, Mode.spot, hq, ho, hcl])
  | literal opened =>
    dsimp only at h
    split at h
    · rename_i hb
      exact went _ (.escaped opened) h (by simp [Scan.step?, Mode.spot, hb])
    · rename_i hb
      split at h
      · rename_i hq
        exact went _ .code h (by simp [Scan.step?, Mode.spot, hq])
      · rename_i hq
        split at h
        · cases h
        · rename_i hn
          exact went _ (.literal opened) h (by simp [Scan.step?, Mode.spot, hb, hq, hn])
  | escaped opened => exact went _ (.literal opened) h rfl

/-- A region ends with the bracket that closes the one it started with, and its inner text is closed. -/
theorem scanRegion_eq_ok {stack cs inner : List Char} {e : Char} {mode : Mode} {pos : SourcePos} {d : Cursor}
    (h : scanRegion (stack ++ [e]) mode pos cs = .ok (inner, d)) :
    Scan.after? ⟨stack, mode.spot⟩ inner = some {} ∧ cs = inner ++ e :: d.rest ∧ d.pos = (pos.after inner).next e := by
  induction cs generalizing stack mode pos inner with
  | nil => cases mode <;> cases h
  | cons c cs ih =>
    cases RegionStep.of_scanRegion h with
    | ends hs hm hc =>
      rw [hs, hm, hc]
      exact ⟨rfl, rfl, rfl⟩
    | goesOn hread hstep =>
      obtain ⟨hscan, hcs, hpos⟩ := ih hread
      refine ⟨?_, by rw [hcs, List.cons_append], hpos⟩
      rw [Scan.after?_cons, hstep, Option.bind_some, hscan]

/-- A region starts with a bracket under the cursor and ends with its closing bracket. -/
theorem balanced_eq_ok {c d : Cursor} {f : Fragment} (h : balanced c = .ok (f, d)) :
    Closed f.text ∧ ∃ o e, closerOf? o = some e ∧ c.rest = o :: (f.text ++ e :: d.rest) ∧ f.start = c.pos.next o ∧
      d.pos = (f.start.after f.text).next e := by
  unfold balanced at h
  split at h
  · cases h
  · rename_i x xs hx
    split at h
    · cases h
    · rename_i e he
      cases hr : scanRegion [e] .code (c.pos.next x) xs with
      | error u =>
        rw [hr] at h
        cases h
      | ok r =>
        rw [hr] at h
        cases h
        obtain ⟨hscan, hxs, hpos⟩ := scanRegion_eq_ok (show scanRegion ([] ++ [e]) .code _ _ = _ from hr)
        exact ⟨hscan, x, e, he, by rw [hx, hxs], rfl, hpos⟩

/-! ### Searching -/

/-- The answer is the first number with the property, or there is none with it. -/
def IsFirst (P : Nat → Prop) : Option Nat → Prop
  | some n => P n ∧ ∀ m < n, ¬P m
  | none => ∀ n, ¬P n

theorem IsFirst.succ {P Q : Nat → Prop} {r : Option Nat} (h : IsFirst P r) (hzero : ¬Q 0) (hsucc : ∀ n, Q (n + 1) ↔ P n) :
    IsFirst Q (r.map (· + 1)) := by
  cases r with
  | none =>
    rintro (_ | n)
    · exact hzero
    · exact mt (hsucc n).mp (h n)
  | some n =>
    refine ⟨(hsucc n).mpr h.1, ?_⟩
    rintro (_ | m) hm
    · exact hzero
    · exact mt (hsucc m).mp (h.2 m (Nat.lt_of_succ_lt_succ hm))

/-- The needle starts at this index of the code, at a character outside the brackets and the literals, those that are
open before the code among them. A bracket or a quote is part of what it opens or closes. -/
structure Scan.StartsAt (s : Scan) (needle code : List Char) (n : Nat) : Prop where
  outside : s.after? (code.take n) = some {}
  plain : ∃ c, code[n]? = some c ∧ IsPlain c
  starts : needle <+: code.drop n

theorem Scan.startsAt_succ {s u : Scan} {c : Char} {needle cs : List Char} (hu : s.step? c = some u) (n : Nat) :
    s.StartsAt needle (c :: cs) (n + 1) ↔ u.StartsAt needle cs n := by
  have hafter : s.after? ((c :: cs).take (n + 1)) = u.after? (cs.take n) := by
    rw [List.take_succ_cons, after?_cons, hu, Option.bind_some]
  constructor
  · rintro ⟨hout, hplain, hstarts⟩
    exact ⟨hafter ▸ hout, hplain, hstarts⟩
  · rintro ⟨hout, hplain, hstarts⟩
    exact ⟨hafter.trans hout, hplain, hstarts⟩

section
variable {needle cs : List Char} {mode : Mode} {pos : SourcePos} {s : Scan}

/-- A search goes on with what is open after the character, unless it ends there. -/
theorem searchTopLevel_cons (pos : SourcePos) {c : Char} {t : Scan} (hs : s.spot = mode.spot) (ht : s.Step c t)
    (hf : ¬(s = {} ∧ IsPlain c ∧ needle.isPrefixOf (c :: cs) = true)) : ∃ mode', t.spot = mode'.spot ∧
      searchTopLevel needle s.awaited.length mode pos (c :: cs) =
        (searchTopLevel needle t.awaited.length mode' (pos.next c) cs).map (· + 1) := by
  cases ht with
  | quote =>
    cases mode <;> cases hs
    exact ⟨.literal pos, rfl, by simp [searchTopLevel]⟩
  | opens ho =>
    cases mode <;> cases hs
    exact ⟨.code, rfl, by simp [searchTopLevel, opener_ne_quote ho, ho]⟩
  | closes he =>
    cases mode <;> cases hs
    exact ⟨.code, rfl, by simp [searchTopLevel, closer_ne_quote he, closerOf?_eq_none he, he]⟩
  | @plain awaited c hc =>
    cases mode <;> cases hs
    -- The needle is found at a plain character outside of all brackets only.
    have hon : ¬(awaited.length = 0 ∧ needle.isPrefixOf (c :: cs) = true) := fun h => by
      cases List.length_eq_zero_iff.mp h.1
      exact hf ⟨rfl, hc, h.2⟩
    exact ⟨.code, rfl, by simp only [searchTopLevel, hc.1, hc.2.1, hc.2.2, hon, if_false, Option.isSome_none, Bool.false_eq_true]⟩
  | backslash =>
    cases mode with
    | literal opened => exact ⟨.escaped opened, rfl, by simp [searchTopLevel]⟩
    | _ => cases hs
  | unquote =>
    cases mode with
    | literal opened => exact ⟨.code, rfl, by simp [searchTopLevel]⟩
    | _ => cases hs
  | inside hb hq hn =>
    cases mode with
    | literal opened => exact ⟨.literal opened, rfl, by simp [searchTopLevel, hb, hq]⟩
    | _ => cases hs
  | escaped =>
    cases mode with
    | escaped opened => exact ⟨.literal opened, rfl, rfl⟩
    | _ => cases hs

theorem searchTopLevel_found {c : Char} (hm : mode.spot = .code) (hc : IsPlain c)
    (hn : needle.isPrefixOf (c :: cs) = true) : searchTopLevel needle 0 mode pos (c :: cs) = some 0 := by
  cases mode <;> cases hm
  simp [searchTopLevel, hc.1, hc.2.1, hc.2.2, hn]

/-- A search finds the first index at which the needle starts outside brackets and literals. -/
theorem isFirst_searchTopLevel {t : Scan} (hs : s.spot = mode.spot) (ht : s.after? cs = some t) :
    IsFirst (s.StartsAt needle cs) (searchTopLevel needle s.awaited.length mode pos cs) := by
  induction cs generalizing s mode pos with
  | nil =>
    rintro n ⟨-, ⟨c, hc, -⟩, -⟩
    cases hc
  | cons c cs ih =>
    obtain ⟨u, hu, ht⟩ := Option.bind_eq_some_iff.mp ht
    by_cases hf : s = {} ∧ IsPlain c ∧ needle.isPrefixOf (c :: cs) = true
    · obtain ⟨rfl, hc, hn⟩ := hf
      have hfound : searchTopLevel needle 0 mode pos (c :: cs) = some 0 := searchTopLevel_found hs.symm hc hn
      show IsFirst _ (searchTopLevel needle 0 mode pos (c :: cs))
      rw [hfound]
      exact ⟨⟨rfl, ⟨c, rfl, hc⟩, List.isPrefixOf_iff_prefix.mp hn⟩, fun m hm => absurd hm (Nat.not_lt_zero m)⟩
    · obtain ⟨mode', hspot, hon⟩ := searchTopLevel_cons pos hs (.of_step? hu) hf
      rw [hon]
      refine (ih hspot ht).succ ?_ (Scan.startsAt_succ hu)
      rintro ⟨hout, ⟨d, hd, hplain⟩, hstarts⟩
      cases hd
      exact hf ⟨Option.some.inj hout, hplain, List.isPrefixOf_iff_prefix.mpr hstarts⟩

end

theorem isFirst_findTopLevel {text : List Char} (hc : Closed text) (needle : List Char) :
    IsFirst (Scan.StartsAt {} needle text) (findTopLevel text needle) :=
  isFirst_searchTopLevel (show ({} : Scan).spot = Mode.spot .code from rfl) hc

/-- A text outside brackets and literals cuts closed code into closed code. -/
theorem closed_of_findTopLevel {text needle : List Char} {n : Nat} (hc : Closed text) (hn : ∀ c ∈ needle, IsPlain c)
    (h : findTopLevel text needle = some n) :
    ∃ before rest, text = before ++ needle ++ rest ∧ before.length = n ∧ Closed before ∧ Closed rest := by
  have hfirst := isFirst_findTopLevel hc needle
  rw [h] at hfirst
  obtain ⟨⟨hbefore, ⟨c, hat, -⟩, rest, hrest⟩, -⟩ := hfirst
  obtain ⟨hlt, -⟩ := List.getElem?_eq_some_iff.mp hat
  have hcut : text = text.take n ++ needle ++ rest := by
    rw [List.append_assoc, hrest, List.take_append_drop]
  refine ⟨text.take n, rest, hcut, List.length_take_of_le (Nat.le_of_lt hlt), hbefore, ?_⟩
  rw [hcut] at hc
  exact (Closed.append hbefore (closed_plain hn)).of_append hc

theorem sealed_of_findTopLevel {text : List Char} (hc : Closed text) (h : findTopLevel text [';'] = none) :
    Sealed text := by
  have hnone := isFirst_findTopLevel hc [';']
  rw [h] at hnone
  rintro u v rfl hu
  refine hnone u.length ⟨?_, ⟨';', by simp, by decide⟩, ?_⟩
  · rwa [List.take_left]
  · rw [List.drop_left]
    exact List.prefix_append [';'] v

/-! ### Splitting -/

section
variable {cs piece : List Char} {mode : Mode} {start pos : SourcePos} {s : Scan}

/-- A split goes on with what is open after the character, unless a piece ends there. -/
theorem splitPieces_cons (start pos : SourcePos) (piece cs : List Char) {c : Char} {t : Scan}
    (hs : s.spot = mode.spot) (ht : s.Step c t) (hf : ¬(s = {} ∧ c = ';')) :
    ∃ mode', t.spot = mode'.spot ∧ splitPieces s.awaited.length mode start pos piece (c :: cs) =
      splitPieces t.awaited.length mode' start (pos.next c) (c :: piece) cs := by
  cases ht with
  | quote =>
    cases mode <;> cases hs
    exact ⟨.literal pos, rfl, by simp [splitPieces]⟩
  | opens ho =>
    cases mode <;> cases hs
    exact ⟨.code, rfl, by simp [splitPieces, opener_ne_quote ho, ho]⟩
  | closes he =>
    cases mode <;> cases hs
    exact ⟨.code, rfl, by simp [splitPieces, closer_ne_quote he, closerOf?_eq_none he, he]⟩
  | @plain awaited c hc =>
    cases mode <;> cases hs
    have hon : ¬(c = ';' ∧ awaited.length = 0) := fun h => by
      cases List.length_eq_zero_iff.mp h.2
      exact hf ⟨rfl, h.1⟩
    refine ⟨.code, rfl, ?_⟩
    simp only [splitPieces, hc.1, hc.2.1, hc.2.2, hon, if_false, Option.isSome_none, Bool.false_eq_true]
  | backslash =>
    cases mode with
    | literal opened => exact ⟨.escaped opened, rfl, by simp [splitPieces]⟩
    | _ => cases hs
  | unquote =>
    cases mode with
    | literal opened => exact ⟨.code, rfl, by simp [splitPieces]⟩
    | _ => cases hs
  | inside hb hq hn =>
    cases mode with
    | literal opened => exact ⟨.literal opened, rfl, by simp [splitPieces, hb, hq]⟩
    | _ => cases hs
  | escaped =>
    cases mode with
    | escaped opened => exact ⟨.literal opened, rfl, rfl⟩
    | _ => cases hs

end

/-- The fragment is a stretch of the text, and its place is the right one. -/
def Fragment.At (text : List Char) (f : Fragment) : Prop :=
  ∃ before after, text = before ++ f.text ++ after ∧ f.start = SourcePos.start.after before

/-- A piece of a fragment stands where it is in the fragment. -/
theorem Fragment.At.piece {text piece : List Char} {pos : SourcePos} (before after : List Char) (start : SourcePos)
    (h : Fragment.At text ⟨before ++ piece ++ after, start⟩) (hp : pos = start.after before) :
    Fragment.At text ⟨piece, pos⟩ := by
  obtain ⟨b, a, htext, hstart⟩ := h
  refine ⟨b ++ before, after ++ a, by simp [htext], ?_⟩
  rw [hp, SourcePos.after_append, ← hstart]

/-- Code cut at its semicolons outside brackets and literals, with the pieces at their places: the first piece starts at
the given place, and each further one behind the semicolon that ends the piece before it. -/
inductive Pieces : SourcePos → List Char → List Fragment → Prop
  | last {start : SourcePos} {w : List Char} (hc : Closed w) (hs : Sealed w) : Pieces start w [⟨w, start⟩]
  | cons {start : SourcePos} {w rest : List Char} {fs : List Fragment} (hc : Closed w) (hs : Sealed w)
      (hr : Pieces (start.after (w ++ [';'])) rest fs) : Pieces start (w ++ ';' :: rest) (⟨w, start⟩ :: fs)

/-- A semicolon that stands in what is open, or any other character, goes on with a piece. -/
theorem Sealed.snoc {s : Scan} {w : List Char} {c : Char} (hw : Sealed w) (hs : ({} : Scan).after? w = some s)
    (hc : ¬(s = {} ∧ c = ';')) : Sealed (w ++ [c]) := by
  rintro u v hu hcl
  rcases List.eq_nil_or_concat v with rfl | ⟨v, x, rfl⟩
  · obtain ⟨rfl, hx⟩ := List.append_inj' hu rfl
    cases hx
    cases hs.symm.trans hcl
    exact hc ⟨rfl, rfl⟩
  · rw [List.concat_eq_append, ← List.cons_append, ← List.append_assoc] at hu
    obtain ⟨hu, -⟩ := List.append_inj' hu rfl
    exact hw u v hu hcl

/-- A split cuts closed code into its pieces. -/
theorem pieces_splitPieces {cs piece : List Char} {mode : Mode} {start pos : SourcePos} {s : Scan} (hs : s.spot = mode.spot)
    (hp : ({} : Scan).after? piece.reverse = some s) (hpiece : Sealed piece.reverse) (hc : s.after? cs = some {})
    (hpos : pos = start.after piece.reverse) :
    Pieces start (piece.reverse ++ cs) (splitPieces s.awaited.length mode start pos piece cs) := by
  induction cs generalizing piece start pos mode s with
  | nil =>
    cases hc
    rw [List.append_nil]
    exact .last hp hpiece
  | cons c cs ih =>
    obtain ⟨t, ht, hc⟩ := Option.bind_eq_some_iff.mp hc
    by_cases hend : s = {} ∧ c = ';'
    · -- A semicolon outside of brackets and literals ends the piece, and the next one starts behind it.
      obtain ⟨rfl, rfl⟩ := hend
      cases mode <;> cases hs
      cases ht
      have hsplit : splitPieces 0 .code start pos piece (';' :: cs) =
          ⟨piece.reverse, start⟩ :: splitPieces 0 .code (pos.next ';') (pos.next ';') [] cs := by
        simp [splitPieces, closerOf?, isCloser]
      have hnext : pos.next ';' = start.after (piece.reverse ++ [';']) := by
        rw [SourcePos.after_append, hpos]
        rfl
      rw [show ({} : Scan).awaited.length = 0 from rfl, hsplit, hnext]
      have hempty : Sealed ([] : List Char).reverse := sealed_of_not_mem (by simp)
      exact .cons hp hpiece (ih (show ({} : Scan).spot = Mode.spot .code from rfl) rfl hempty hc rfl)
    · -- Any other character is one of the piece.
      obtain ⟨mode', hspot, hon⟩ := splitPieces_cons start pos piece cs hs (.of_step? ht) hend
      have hrev : (c :: piece).reverse = piece.reverse ++ [c] := List.reverse_cons
      have hsnoc : ({} : Scan).after? (piece.reverse ++ [c]) = some t := by
        rw [Scan.after?_append_of hp, Scan.after?_cons, ht]
        rfl
      have hmore : Pieces start ((c :: piece).reverse ++ cs)
          (splitPieces t.awaited.length mode' start (pos.next c) (c :: piece) cs) := by
        refine ih hspot (hrev ▸ hsnoc) (hrev ▸ hpiece.snoc hp hend) hc ?_
        rw [hrev, SourcePos.after_append, ← hpos]
        rfl
      rw [hon]
      rwa [hrev, List.append_assoc, List.singleton_append] at hmore

theorem pieces_splitStatements {f : Fragment} (hc : Closed f.text) : Pieces f.start f.text (splitStatements f) :=
  have hempty : Sealed ([] : List Char).reverse := sealed_of_not_mem (by simp)
  pieces_splitPieces (show ({} : Scan).spot = Mode.spot .code from rfl) rfl hempty hc rfl

/-- The pieces of a stretch of the text stand in the text, are closed, and have no semicolon outside brackets and
literals. -/
theorem Pieces.mem {text w : List Char} {start : SourcePos} {fs : List Fragment} (h : Pieces start w fs)
    (hat : Fragment.At text ⟨w, start⟩) {f : Fragment} (hf : f ∈ fs) : f.At text ∧ Closed f.text ∧ Sealed f.text := by
  induction h with
  | last hc hs =>
    cases List.mem_singleton.mp hf
    exact ⟨hat, hc, hs⟩
  | @cons start w rest fs hc hs _ ih =>
    rcases List.mem_cons.mp hf with rfl | hf
    · exact ⟨Fragment.At.piece [] (';' :: rest) start (by simpa using hat) rfl, hc, hs⟩
    · exact ih (Fragment.At.piece (w ++ [';']) [] start (by simpa using hat) rfl) hf

theorem mem_splitStatements {text : List Char} {inner f : Fragment} (hat : inner.At text) (hc : Closed inner.text)
    (hf : f ∈ splitStatements inner) : f.At text ∧ Closed f.text ∧ Sealed f.text :=
  (pieces_splitStatements hc).mem hat hf

/-! ### Trimming and dropping -/

theorem trim_eq (cs : List Char) :
    ∃ before after, cs = before ++ Text.trim cs ++ after ∧ before = cs.takeWhile Text.isBlank ∧
      Text.allBlank before = true ∧ Text.allBlank after = true := by
  refine ⟨cs.takeWhile Text.isBlank, ((Text.trimStart cs).reverse.takeWhile Text.isBlank).reverse, ?_, rfl, ?_, ?_⟩
  · rw [Text.trim, Text.trimEnd, List.append_assoc, ← List.reverse_append, List.takeWhile_append_dropWhile,
      List.reverse_reverse, Text.takeWhile_append_trimStart]
  · exact List.all_takeWhile
  · rw [Text.allBlank, List.all_reverse]
    exact List.all_takeWhile

theorem closed_blanks {bs : List Char} (h : Text.allBlank bs = true) : Closed bs :=
  closed_plain fun c hc => isPlain_of_isBlank (List.all_eq_true.mp h c hc)

section
variable {text : List Char} {f : Fragment}

theorem Fragment.At.trim (h : f.At text) : f.trim.At text := by
  obtain ⟨before, after, htext, hbefore, -, -⟩ := trim_eq f.text
  refine Fragment.At.piece before after f.start ?_ ?_
  · exact htext ▸ h
  · rw [hbefore]

theorem Closed.trim {cs : List Char} (h : Closed cs) : Closed (Text.trim cs) := by
  obtain ⟨before, after, htext, -, hb, ha⟩ := trim_eq cs
  rw [htext, List.append_assoc] at h
  have hrest := (closed_blanks hb).of_append h
  obtain ⟨t, ht, hafter⟩ := Scan.after?_eq_some_of_append hrest
  cases Scan.eq_of_after?_blanks ha hafter
  exact ht

theorem Sealed.trim {cs : List Char} (h : Sealed cs) : Sealed (Text.trim cs) := by
  obtain ⟨before, after, htext, -, hb, -⟩ := trim_eq cs
  rw [htext] at h
  exact h.left.right (closed_blanks hb)

theorem Fragment.At.drop (h : f.At text) (n : Nat) : (f.drop n).At text :=
  Fragment.At.piece (f.text.take n) [] f.start (by simpa using h) rfl

end

end Stencil.Markup
