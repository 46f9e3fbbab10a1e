import Stencil.Proofs.Ir.Codec
import Stencil.Ir.Program
import Stencil.Proofs.Json.Canonical
import Stencil.Unit.Build

/-! Binaries give back their modules.

A module is exact if its literals are, and its indices, its places and its format version are in the reader's range. If
its text nests no deeper than the reader goes, then both of its binaries, on one line and indented, are read as the
module itself. So it makes no difference to what is loaded whether a unit is built to be looked at. -/

namespace Stencil

/-- A list comes back if each of its items does. -/
theorem mapM_eq_some {f : α → Option α} {xs : List α} (h : ∀ x ∈ xs, f x = some x) : xs.mapM f = some xs := by
  induction xs with
  | nil => rfl
  | cons x xs ih =>
    rw [List.mapM_cons, h x List.mem_cons_self, ih fun y hy => h y (List.mem_cons_of_mem _ hy)]
    rfl

namespace Ir

/-! ### What is in range -/

/-- A place in range, if there is one. -/
def ExactPlace (pos : Option SourcePos) : Prop := ∀ p ∈ pos, p.line < countLimit ∧ p.column < countLimit

/-- A callee with its index in range. -/
inductive Callee.Exact : Callee → Prop
  | builtin (b : Builtin) : Exact (builtin b)
  | function {index : Nat} (hi : index < countLimit) : Exact (function index)
  | helper {slot : Nat} (hs : slot < countLimit) : Exact (helper slot)

/-- An expression whose literals and indices are exact. -/
inductive Expr.Exact : Expr → Prop
  | literal {v : Json} (hv : v.Exact) : Exact (literal v)
  | model : Exact model
  | var (name : String) : Exact (var name)
  | member {target : Expr} (name : String) (ht : target.Exact) : Exact (member target name)
  | call {callee : Callee} {args : List Expr} (hc : callee.Exact) (ha : ∀ a ∈ args, a.Exact) : Exact (call callee args)
  | not {operand : Expr} (ho : operand.Exact) : Exact (not operand)
  | binary (op : BinaryOp) {lhs rhs : Expr} (hl : lhs.Exact) (hr : rhs.Exact) : Exact (binary op lhs rhs)

mutual

/-- A statement whose expressions, indices and places are exact. -/
inductive Stmt.Exact : Stmt → Prop
  | write (text : String) : Stmt.Exact (.write text)
  | emit {expr : Expr} {pos : Option SourcePos} (he : expr.Exact) (hp : ExactPlace pos) : Stmt.Exact (.emit expr pos)
  | bind (name : String) {expr : Expr} {pos : Option SourcePos} (he : expr.Exact) (hp : ExactPlace pos) :
      Stmt.Exact (.bind name expr pos)
  | ifElse {branches : List Branch} {otherwise : Option (List Stmt)} {pos : Option SourcePos}
      (hb : ∀ b ∈ branches, Branch.Exact b) (ho : ∀ body ∈ otherwise, ∀ s ∈ body, Stmt.Exact s) (hp : ExactPlace pos) :
      Stmt.Exact (.ifElse branches otherwise pos)
  | forEach (var : String) {source : Expr} {body : List Stmt} {pos : Option SourcePos} (hs : source.Exact)
      (hb : ∀ s ∈ body, Stmt.Exact s) (hp : ExactPlace pos) : Stmt.Exact (.forEach var source body pos)
  | defineSection {index : Nat} (hi : index < countLimit) : Stmt.Exact (.defineSection index)

/-- A branch whose condition and statements are exact. -/
inductive Branch.Exact : Branch → Prop
  | mk {cond : Expr} {body : List Stmt} (hc : cond.Exact) (hb : ∀ s ∈ body, Stmt.Exact s) : Branch.Exact (.mk cond body)

end

/-- A module whose parts are exact and whose format version is in range. -/
structure Module.Exact (m : Module) : Prop where
  format : m.format < formatLimit
  functions : ∀ f ∈ m.functions, f.body.Exact ∧ ExactPlace f.pos
  sections : ∀ s ∈ m.sections, ∀ t ∈ s.body, t.Exact
  body : ∀ s ∈ m.body, s.Exact

/-! ### What comes back -/

theorem ExactPlace.reread? {pos : Option SourcePos} (h : ExactPlace pos) : rereadPlace? pos = some pos := by
  cases pos with
  | none => rfl
  | some p => rw [rereadPlace?, rereadPos?, if_pos (h p rfl), Option.map_some]

theorem Callee.Exact.reread? {c : Callee} (h : c.Exact) : c.reread? = some c := by
  cases h with
  | builtin => rfl
  | function hi | helper hi => exact if_pos hi

/-- An exact expression comes back as it is. -/
theorem Expr.Exact.reread? {e : Expr} (h : e.Exact) : e.reread? = some e := by
  induction h with
  | literal hv => rw [Expr.reread?, hv.reread?, Option.map_some, hv.canonical]
  | model | var => rfl
  | member _ _ ih | not _ ih => rw [Expr.reread?, ih, Option.map_some]
  | call hc _ ih =>
    rw [Expr.reread?, hc.reread?, rereadExprs?_eq_mapM, mapM_eq_some ih]
    rfl
  | binary _ _ _ ihl ihr =>
    rw [Expr.reread?, ihl, ihr]
    rfl

theorem rereadBlock?_eq_some {otherwise : Option (List Stmt)}
    (h : ∀ body ∈ otherwise, ∀ s ∈ body, s.reread? = some s) : rereadBlock? otherwise = some otherwise := by
  cases otherwise with
  | none => rfl
  | some body =>
    rw [rereadBlock?, rereadStmts?_eq_mapM, mapM_eq_some (h body rfl)]
    rfl

/-- An exact statement comes back as it is. -/
theorem Stmt.Exact.reread? {s : Stmt} (h : s.Exact) : s.reread? = some s := by
  induction h using Stmt.Exact.rec (motive_2 := fun b _ => b.reread? = some b) with
  | write => rfl
  | emit he hp | bind _ he hp =>
    rw [Stmt.reread?, he.reread?, hp.reread?]
    rfl
  | ifElse _ _ hp ihb iho =>
    rw [Stmt.reread?, rereadBranches?_eq_mapM, mapM_eq_some ihb, rereadBlock?_eq_some iho, hp.reread?]
    rfl
  | forEach _ hs _ hp ih =>
    rw [Stmt.reread?, hs.reread?, rereadStmts?_eq_mapM, mapM_eq_some ih, hp.reread?]
    rfl
  | defineSection hi => exact if_pos hi
  | mk hc _ ih =>
    rw [Branch.reread?, hc.reread?, rereadStmts?_eq_mapM, mapM_eq_some ih]
    rfl

/-- An exact module comes back as it is. -/
theorem Module.Exact.reread? {m : Module} (h : m.Exact) : m.reread? = some m := by
  have hfunctions : m.functions.mapM Function.reread? = some m.functions := mapM_eq_some fun f hf => by
    rw [Function.reread?, (h.functions f hf).1.reread?, (h.functions f hf).2.reread?]
    rfl
  have hsections : m.sections.mapM Section.reread? = some m.sections := mapM_eq_some fun s hs => by
    rw [Section.reread?, rereadStmts?_eq_mapM, mapM_eq_some fun t ht => (h.sections s hs t ht).reread?]
    rfl
  have hbody : rereadStmts? m.body = some m.body := by
    rw [rereadStmts?_eq_mapM, mapM_eq_some fun s hs => (h.body s hs).reread?]
  rw [Module.reread?, if_pos h.format, hfunctions, hsections, hbody]
  rfl

/-- Both binaries of a module are read alike, also if they cannot be read. -/
theorem Module.decode?_encode_debug (m : Module) :
    Module.decode? (m.encode true) = Module.decode? (m.encode false) := by
  rw [Module.decode?_encode, Module.decode?_encode]

end Ir

/-! ### Builds to be looked at -/

/-- Building a unit to be looked at changes how its module is written and nothing else. -/
theorem Unit.build_debug (source : String) (options : BuildOptions) (references : List Reference) :
    ∃ (compiled : Option Ir.Module) (diagnostics : List Diagnostic), ∀ debug,
      build source { options with debug } references = ⟨compiled.map (·.encode debug), diagnostics⟩ := by
  unfold build
  cases Tree.ofSource source with
  | error found => exact ⟨none, _, fun _ => rfl⟩
  | ok tree =>
    dsimp only
    cases tree.lower? options.toLoweringOptions references with
    | none => exact ⟨none, _, fun _ => rfl⟩
    | some lowered => exact ⟨lowered.compiled, _, fun _ => rfl⟩

namespace Ir

/-- An exact module whose text nests at most 127 deep is what both of its binaries are read as. The two builds of any
unit report the same, and both load the same program or are both refused for the same fault. -/
theorem Module.round_trip :
    (∀ m : Module, m.Exact → m.toJson.nesting ≤ maxNesting → ∀ debug, Module.decode? (m.encode debug) = some m) ∧
    ∀ (source : String) (options : BuildOptions) (references : List Reference) (bases : List BaseType),
      let indented := Unit.build source { options with debug := true } references
      let plain := Unit.build source { options with debug := false } references
      indented.diagnostics = plain.diagnostics ∧
      indented.binary.map Module.decode? = plain.binary.map Module.decode? ∧
      indented.binary.map (Program.load · references bases) = plain.binary.map (Program.load · references bases) := by
  refine ⟨fun m h hn debug => ?_, fun source options references bases => ?_⟩
  · rw [Module.decode?_encode, if_pos hn, h.reread?]
  · obtain ⟨compiled, diagnostics, hbuild⟩ := Unit.build_debug source options references
    dsimp only
    rw [hbuild true, hbuild false]
    refine ⟨rfl, ?_, ?_⟩
    · cases compiled with
      | none => rfl
      | some m => exact congrArg some m.decode?_encode_debug
    · cases compiled with
      | none => rfl
      | some m =>
        show some (Program.load (m.encode true) references bases) = some (Program.load (m.encode false) references bases)
        rw [Program.load, Program.load, m.decode?_encode_debug]

/-- A module with a loop over members, a literal object, a null layout and the largest integers. -/
def Module.orderPage : Module where
  format := 1
  space := "CompiledTemplates"
  className := "Template_1"
  baseType := "TemplateBase"
  modelType := "dynamic"
  usings := ["Html", "Text"]
  layout := none
  layoutInherited := true
  imports := [⟨"Text", "Concat"⟩]
  functions := [⟨"Twice", ["x"], .call (.helper 0) [.var "x", .var "x"], some ⟨2, 14⟩⟩]
  sections := [⟨"Füße", [.write "\"quoted\"\n"]⟩]
  body := [
    .bind "n" (.literal (.object [("a", .ofInt (-2 ^ 63)), ("b", .array [.ofInt (2 ^ 64 - 1), .null])])) none,
    .forEach "o" (.member .model "Orders") [
      .ifElse [.mk (.not (.binary .eq (.var "o") (.literal .null))) [.emit (.call (.function 0) [.var "o"]) none]]
        (some [.write "none"]) (some ⟨5, 3⟩)] (some ⟨4, 1⟩),
    .defineSection 0]

theorem exact_orderPage : Module.orderPage.Exact where
  format := by decide
  functions := by
    intro f hf
    cases List.mem_singleton.mp hf
    refine ⟨.call (.helper (by decide)) fun a ha => ?_, fun p hp => ?_⟩
    · rcases List.mem_pair.mp ha with rfl | rfl <;> exact .var "x"
    · cases hp
      exact ⟨by decide, by decide⟩
  sections := by
    intro s hs t ht
    cases List.mem_singleton.mp hs
    cases List.mem_singleton.mp ht
    exact .write _
  body := by
    have hplace : ExactPlace none := fun p hp => nomatch hp
    have hliteral : Json.Exact (.object [("a", .ofInt (-2 ^ 63)), ("b", .array [.ofInt (2 ^ 64 - 1), .null])]) := by
      refine .object (by decide) fun m hm => ?_
      rcases List.mem_pair.mp hm with rfl | rfl
      · exact .number (by decide) (by decide)
      · refine .array fun v hv => ?_
        rcases List.mem_pair.mp hv with rfl | rfl
        · exact .number (by decide) (by decide)
        · exact .null
    have hcond : Expr.Exact (.not (.binary .eq (.var "o") (.literal .null))) := .not (.binary _ (.var _) (.literal .null))
    have hemit : Stmt.Exact (.emit (.call (.function 0) [.var "o"]) none) :=
      .emit (.call (.function (by decide)) fun a ha => List.mem_singleton.mp ha ▸ .var "o") hplace
    have hbranch : Branch.Exact (.mk (.not (.binary .eq (.var "o") (.literal .null)))
        [.emit (.call (.function 0) [.var "o"]) none]) :=
      .mk hcond fun s hs => List.mem_singleton.mp hs ▸ hemit
    intro s hs
    simp only [Module.orderPage, List.mem_cons, List.not_mem_nil, or_false] at hs
    rcases hs with rfl | rfl | rfl
    · exact .bind _ (.literal hliteral) hplace
    · refine .forEach _ (.member _ .model) (fun s hs => ?_) fun p hp => ?_
      · cases List.mem_singleton.mp hs
        refine .ifElse (fun b hb => List.mem_singleton.mp hb ▸ hbranch) (fun body hbody t ht => ?_) fun p hp => ?_
        · cases hbody
          cases List.mem_singleton.mp ht
          exact .write _
        · cases hp
          exact ⟨by decide, by decide⟩
      · cases hp
        exact ⟨by decide, by decide⟩
    · exact .defineSection (by decide)

theorem Module.round_trip_orderPage : Module.orderPage.Exact ∧ Module.orderPage.toJson.nesting ≤ maxNesting ∧
    ∀ debug, Module.decode? (Module.orderPage.encode debug) = some Module.orderPage := by
  have hn : Module.orderPage.toJson.nesting ≤ maxNesting := by decide
  exact ⟨exact_orderPage, hn, Module.round_trip.1 _ exact_orderPage hn⟩

end Ir

end Stencil
