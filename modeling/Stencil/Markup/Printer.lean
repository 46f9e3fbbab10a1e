import Stencil.Markup.Document
import Stencil.Markup.Nesting
import Stencil.Text.Name

/-!
Printing template markup. Every node but text is printed between an empty code block and an empty comment, so
that nothing before or after it is taken for a part of it, and every at sign of a text is doubled. Printing
reads no places: two trees that are equal up to places are printed alike.
-/

namespace Stencil.Markup

/-! ### Places -/

mutual

/-- A node without places. -/
def Node.erasePlaces : Node → Node
  | .text text _ => .text text .start
  | .expr code _ => .expr code .start
  | .var name code _ => .var name code .start
  | .ifElse branches none => .ifElse (Branch.erasePlacesAll branches) none
  | .ifElse branches (some body) => .ifElse (Branch.erasePlacesAll branches) (some (Node.erasePlacesAll body))
  | .forEach var source _ body => .forEach var source .start (Node.erasePlacesAll body)
  | .sectionDef name _ body => .sectionDef name .start (Node.erasePlacesAll body)

/-- Nodes without places. -/
def Node.erasePlacesAll : List Node → List Node
  | [] => []
  | n :: ns => n.erasePlaces :: Node.erasePlacesAll ns

/-- An alternative without places. -/
def Branch.erasePlaces : Branch → Branch
  | .mk cond _ body => .mk cond .start (Node.erasePlacesAll body)

/-- Alternatives without places. -/
def Branch.erasePlacesAll : List Branch → List Branch
  | [] => []
  | b :: bs => b.erasePlaces :: Branch.erasePlacesAll bs

end

/-! ### Printing -/

/-- A text with every at sign doubled. -/
def doubleAtSigns (cs : List Char) : List Char :=
  cs.flatMap fun c => if c = '@' then ['@', '@'] else [c]

/-- A construct between an empty code block and an empty comment. -/
def framed (cs : List Char) : List Char := "@\x7b\x7d".toList ++ cs ++ "@**@".toList

/-- A block in its braces. -/
def braced (cs : List Char) : List Char := '{' :: cs ++ ['}']

mutual

/-- The markup of a node. -/
def Node.print : Node → List Char
  | .text text _ => doubleAtSigns text.toList
  | .expr code _ => framed ("@(".toList ++ code.toList ++ [')'])
  | .var name code _ => framed ("@\x7bvar ".toList ++ name.toList ++ " = ".toList ++ code.toList ++ ";\x7d".toList)
  | .ifElse branches none => framed ('@' :: Branch.printAll branches)
  | .ifElse branches (some body) =>
    framed ('@' :: Branch.printAll branches ++ " else ".toList ++ braced (Node.printAll body))
  | .forEach var source _ body =>
    framed ("@foreach (var ".toList ++ var.toList ++ " in ".toList ++ source.toList ++ ") ".toList ++
      braced (Node.printAll body))
  | .sectionDef name _ body => framed ("@section ".toList ++ name.toList ++ ' ' :: braced (Node.printAll body))

/-- The markup of nodes. -/
def Node.printAll : List Node → List Char
  | [] => []
  | n :: ns => n.print ++ Node.printAll ns

/-- The markup of an alternative. -/
def Branch.print : Branch → List Char
  | .mk cond _ body => "if (".toList ++ cond.toList ++ ") ".toList ++ braced (Node.printAll body)

/-- The markup of alternatives. -/
def Branch.printAll : List Branch → List Char
  | [] => []
  | [b] => b.print
  | b :: bs => b.print ++ " else ".toList ++ Branch.printAll bs

end

/-! ### What can be printed -/

/-- The number of open braces after a text, where no brace closes more than is open. -/
def braceDepth? (depth : Nat) : List Char → Option Nat
  | [] => some depth
  | '{' :: cs => braceDepth? (depth + 1) cs
  | '}' :: cs => match depth with
    | 0 => none
    | depth + 1 => braceDepth? depth cs
  | _ :: cs => braceDepth? depth cs

/-- The literal text among nodes. -/
def ownText : List Node → List Char
  | [] => []
  | .text text _ :: ns => text.toList ++ ownText ns
  | _ :: ns => ownText ns

/-- No two texts follow one another, and none is empty. -/
def SeparateTexts : List Node → Prop
  | [] => True
  | [.text text _] => text.toList ≠ []
  | .text _ _ :: .text _ _ :: _ => False
  | .text text _ :: ns => text.toList ≠ [] ∧ SeparateTexts ns
  | _ :: ns => SeparateTexts ns

/-- The names of the sections among nodes. -/
def sectionNames : List Node → List String
  | [] => []
  | .sectionDef name _ _ :: ns => name :: sectionNames ns
  | _ :: ns => sectionNames ns

theorem sectionNames_cons (n : Node) (ns : List Node) :
    sectionNames (n :: ns) = sectionNames [n] ++ sectionNames ns := by
  cases n <;> rfl

theorem sectionNames_append (ns ms : List Node) : sectionNames (ns ++ ms) = sectionNames ns ++ sectionNames ms := by
  induction ns with
  | nil => rfl
  | cons n ns ih => rw [List.cons_append, sectionNames_cons, ih, sectionNames_cons n ns, List.append_assoc]

/-- Code that can stand between brackets: it is trimmed, not blank and well nested. -/
structure IsCode (code : String) : Prop where
  trimmed : Text.trim code.toList = code.toList
  notBlank : Text.allBlank code.toList = false
  nested : WellNested code.toList

mutual

/-- A node that can be printed; sections stand at the top level. -/
inductive Printable : Bool → Node → Prop
  | text (top : Bool) (text : String) (pos : SourcePos) : Printable top (.text text pos)
  | expr (top : Bool) {code : String} (pos : SourcePos) (hc : IsCode code) : Printable top (.expr code pos)
  | var (top : Bool) {name code : String} (pos : SourcePos) (hn : Text.isName name.toList = true) (hc : IsCode code)
      (hs : findTopLevel code.toList [';'] = none) : Printable top (.var name code pos)
  | ifElse (top : Bool) {branches : List Branch} {body : List Node} (hne : branches ≠ [])
      (hb : ∀ b ∈ branches, PrintableBranch b) (ho : PrintableBody body) :
      Printable top (.ifElse branches (some body))
  | ifOnly (top : Bool) {branches : List Branch} (hne : branches ≠ []) (hb : ∀ b ∈ branches, PrintableBranch b) :
      Printable top (.ifElse branches none)
  | forEach (top : Bool) {var source : String} (pos : SourcePos) {body : List Node}
      (hn : Text.isName var.toList = true) (hi : var ≠ "in") (hc : IsCode source) (hb : PrintableBody body) :
      Printable top (.forEach var source pos body)
  | sectionDef {name : String} (pos : SourcePos) {body : List Node} (hn : Text.isName name.toList = true)
      (hb : PrintableBody body) : Printable true (.sectionDef name pos body)

/-- A body that can be printed between braces. -/
inductive PrintableBody : List Node → Prop
  | mk {body : List Node} (hn : ∀ n ∈ body, Printable false n) (hs : SeparateTexts body)
      (hd : braceDepth? 0 (ownText body) = some 0) : PrintableBody body

/-- An alternative that can be printed. -/
inductive PrintableBranch : Branch → Prop
  | mk {cond : String} (pos : SourcePos) {body : List Node} (hc : IsCode cond) (hb : PrintableBody body) :
      PrintableBranch (.mk cond pos body)

end

/-- A template that can be printed. -/
structure PrintableTemplate (nodes : List Node) : Prop where
  printable : ∀ n ∈ nodes, Printable true n
  texts : SeparateTexts nodes
  sections : (sectionNames nodes).Nodup

/-! ### Printing reads no places -/

theorem Branch.printAll_cons (b : Branch) {bs : List Branch} (h : bs ≠ []) :
    Branch.printAll (b :: bs) = b.print ++ " else ".toList ++ Branch.printAll bs := by
  cases bs with
  | nil => exact absurd rfl h
  | cons c bs => rw [Branch.printAll]; exact List.cons_ne_nil c bs

mutual

theorem Node.print_erasePlaces : (n : Node) → n.erasePlaces.print = n.print
  | .text _ _ | .expr _ _ | .var _ _ _ => rfl
  | .ifElse branches none => by
    rw [Node.erasePlaces, Node.print, Node.print, Branch.printAll_erasePlacesAll branches]
  | .ifElse branches (some body) => by
    rw [Node.erasePlaces, Node.print, Node.print, Branch.printAll_erasePlacesAll branches,
      Node.printAll_erasePlacesAll body]
  | .forEach _ _ _ body => by
    rw [Node.erasePlaces, Node.print, Node.print, Node.printAll_erasePlacesAll body]
  | .sectionDef _ _ body => by
    rw [Node.erasePlaces, Node.print, Node.print, Node.printAll_erasePlacesAll body]

theorem Node.printAll_erasePlacesAll : (ns : List Node) → Node.printAll (Node.erasePlacesAll ns) = Node.printAll ns
  | [] => rfl
  | n :: ns => by
    rw [Node.erasePlacesAll, Node.printAll, Node.printAll, Node.print_erasePlaces n,
      Node.printAll_erasePlacesAll ns]

theorem Branch.print_erasePlaces : (b : Branch) → b.erasePlaces.print = b.print
  | .mk _ _ body => by
    rw [Branch.erasePlaces, Branch.print, Branch.print, Node.printAll_erasePlacesAll body]

theorem Branch.printAll_erasePlacesAll :
    (bs : List Branch) → Branch.printAll (Branch.erasePlacesAll bs) = Branch.printAll bs
  | [] => rfl
  | [b] => by
    rw [Branch.erasePlacesAll, Branch.erasePlacesAll, Branch.printAll, Branch.printAll, Branch.print_erasePlaces b]
  | b :: c :: bs => by
    have ih := Branch.printAll_erasePlacesAll (c :: bs)
    rw [Branch.erasePlacesAll] at ih ⊢
    rw [Branch.erasePlacesAll, Branch.printAll_cons _ (List.cons_ne_nil _ _), ih,
      Branch.printAll_cons _ (List.cons_ne_nil _ _), Branch.print_erasePlaces b]

end

end Stencil.Markup
