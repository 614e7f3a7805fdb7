import Qira.Bil
import Qira.Instructions

/-!
The visitors that collect the jumps of a list of statements, and the variables it reads and writes. What a visitor
does at a node that it has no method for is bap's, and a parameter here.
-/

namespace Qira.BapVisitors
open Bil Instructions

/-- What a visitor is run on. -/
inductive Node
  | exp (exp : Exp)
  | stmt (stmt : Stmt)
  | stmts (stmts : List Stmt)

/-- What a node is made of. -/
def components : Node → List Node
  | .exp (.load mem idx _ _) => [.exp mem, .exp idx]
  | .exp (.store mem idx value _ _) => [.exp mem, .exp idx, .exp value]
  | .exp (.binOp _ lhs rhs) => [.exp lhs, .exp rhs]
  | .exp (.unOp _ arg) => [.exp arg]
  | .exp (.var _) => []
  | .exp (.int _ _) => []
  | .exp (.cast _ _ expr) => [.exp expr]
  | .exp (.letVar v value expr) => [.exp (.var v), .exp value, .exp expr]
  | .exp .unknown => []
  | .exp (.ite cond yes no) => [.exp cond, .exp yes, .exp no]
  | .exp (.extract _ _ expr) => [.exp expr]
  | .exp (.concat lhs rhs) => [.exp lhs, .exp rhs]
  | .stmt (.move v expr) => [.exp (.var v), .exp expr]
  | .stmt (.jmp arg) => [.exp arg]
  | .stmt (.whileStmt cond stmts) => [.exp cond, .stmts stmts]
  | .stmt (.ifStmt cond yes no) => [.exp cond, .stmts yes, .stmts no]
  | .stmts stmts => stmts.map .stmt

/-- `Visitor` of bap: where there is no method for a node, the visitor is run on these. -/
structure Visitor where
  parts : Node → List Node
  smaller : ∀ node, ∀ part ∈ parts node, sizeOf part < sizeOf node

/-- The visitor descends into all that a node is made of, and into nothing else. -/
def Visitor.Descends (visitor : Visitor) : Prop := ∀ node part, part ∈ visitor.parts node ↔ part ∈ components node

theorem sizeOf_exp_pos (exp : Exp) : 0 < sizeOf exp := by
  cases exp <;> simp only [Exp.load.sizeOf_spec, Exp.store.sizeOf_spec, Exp.binOp.sizeOf_spec, Exp.unOp.sizeOf_spec,
    Exp.var.sizeOf_spec, Exp.int.sizeOf_spec, Exp.cast.sizeOf_spec, Exp.letVar.sizeOf_spec, Exp.unknown.sizeOf_spec,
    Exp.ite.sizeOf_spec, Exp.extract.sizeOf_spec, Exp.concat.sizeOf_spec] <;> omega

/-- The components in their order. -/
def inOrder : Visitor where
  parts := components
  smaller := by
    intro node part member
    cases node with
    | exp exp =>
      cases exp with
      | letVar v value expr =>
        have some := sizeOf_exp_pos expr
        simp only [components, List.mem_cons, List.not_mem_nil, or_false] at member
        rcases member with rfl | rfl | rfl <;> simp <;> omega
      | int _ _ => exact absurd member List.not_mem_nil
      | unknown => exact absurd member List.not_mem_nil
      | var _ => exact absurd member List.not_mem_nil
      | _ =>
        simp only [components, List.mem_cons, List.not_mem_nil, or_false] at member
        rcases member with rfl | rfl | rfl <;> simp <;> omega
    | stmt stmt =>
      cases stmt with
      | move v expr =>
        have some := sizeOf_exp_pos expr
        simp only [components, List.mem_cons, List.not_mem_nil, or_false] at member
        rcases member with rfl | rfl
        · simp
          omega
        · simp
      | _ =>
        simp only [components, List.mem_cons, List.not_mem_nil, or_false] at member
        rcases member with rfl | rfl | rfl <;> simp <;> omega
    | stmts stmts =>
      obtain ⟨stmt, inside, rfl⟩ := List.mem_map.mp member
      have smaller := List.sizeOf_lt_of_mem inside
      simpa using smaller

theorem inOrder_descends : inOrder.Descends := fun _ _ => Iff.rfl

section Visitors
variable (visitor : Visitor)

/-- `Jmp_visitor`, with what it finds. -/
def jmpVisitor (inCondition : Bool) (node : Node) : List (Exp × DestType) :=
  match node with
  | .stmt (.ifStmt _ yes no) => jmpVisitor true (.stmts yes) ++ jmpVisitor true (.stmts no)
  | .stmt (.jmp arg) => [(arg, if inCondition then .cjump else .jump)]
  | node => (visitor.parts node).attach.flatMap fun part => jmpVisitor inCondition part.1
termination_by node
decreasing_by
  · simp only [Node.stmt.sizeOf_spec, Node.stmts.sizeOf_spec, Stmt.ifStmt.sizeOf_spec]
    omega
  · simp only [Node.stmt.sizeOf_spec, Node.stmts.sizeOf_spec, Stmt.ifStmt.sizeOf_spec]
    omega
  · exact visitor.smaller _ _ part.2

/-- `Access_visitor`, with the names read and the names written that it finds. -/
def accessVisitor (node : Node) : List String × List String :=
  match node with
  | .stmt (.move v expr) => ((accessVisitor (.exp expr)).1, v.name :: (accessVisitor (.exp expr)).2)
  | .exp (.var v) => ([v.name], [])
  | node =>
      let found := (visitor.parts node).attach.map fun part => accessVisitor part.1
      (found.flatMap Prod.fst, found.flatMap Prod.snd)
termination_by node
decreasing_by
  · simp only [Node.stmt.sizeOf_spec, Node.exp.sizeOf_spec, Stmt.move.sizeOf_spec]
    omega
  · exact visitor.smaller _ _ part.2

def jumps (bil : List Stmt) : List (Exp × DestType) := jmpVisitor visitor false (.stmts bil)

def accesses (bil : List Stmt) : List String × List String := accessVisitor visitor (.stmts bil)

end Visitors

section Contents

mutual

/-- The jumps in a statement. In a branch of an `If` they are conditional. -/
def jumpsOf (inCondition : Bool) : Stmt → List (Exp × DestType)
  | .move _ _ => []
  | .jmp arg => [(arg, if inCondition then .cjump else .jump)]
  | .whileStmt _ stmts => jumpsIn inCondition stmts
  | .ifStmt _ yes no => jumpsIn true yes ++ jumpsIn true no

def jumpsIn (inCondition : Bool) : List Stmt → List (Exp × DestType)
  | [] => []
  | stmt :: rest => jumpsOf inCondition stmt ++ jumpsIn inCondition rest

end

/-- The names in an expression. -/
def namesIn : Exp → List String
  | .load mem idx _ _ => namesIn mem ++ namesIn idx
  | .store mem idx value _ _ => namesIn mem ++ namesIn idx ++ namesIn value
  | .binOp _ lhs rhs => namesIn lhs ++ namesIn rhs
  | .unOp _ arg => namesIn arg
  | .var v => [v.name]
  | .int _ _ => []
  | .cast _ _ expr => namesIn expr
  | .letVar v value expr => v.name :: (namesIn value ++ namesIn expr)
  | .unknown => []
  | .ite cond yes no => namesIn cond ++ namesIn yes ++ namesIn no
  | .extract _ _ expr => namesIn expr
  | .concat lhs rhs => namesIn lhs ++ namesIn rhs

mutual

/-- The names in the expressions of a statement, and the names it assigns to. -/
def accessesOf : Stmt → List String × List String
  | .move v expr => (namesIn expr, [v.name])
  | .jmp arg => (namesIn arg, [])
  | .whileStmt cond stmts => (namesIn cond ++ (accessesIn stmts).1, (accessesIn stmts).2)
  | .ifStmt cond yes no =>
      (namesIn cond ++ (accessesIn yes).1 ++ (accessesIn no).1, (accessesIn yes).2 ++ (accessesIn no).2)

def accessesIn : List Stmt → List String × List String
  | [] => ([], [])
  | stmt :: rest => ((accessesOf stmt).1 ++ (accessesIn rest).1, (accessesOf stmt).2 ++ (accessesIn rest).2)

end

end Contents

section Collected
variable {visitor : Visitor} (descends : visitor.Descends)

/-- An expression is made of expressions. -/
theorem components_exp {exp : Exp} {part : Node} (member : part ∈ components (.exp exp)) :
    ∃ inner, part = .exp inner := by
  cases exp <;> simp only [components, List.mem_cons, List.not_mem_nil, or_false] at member <;>
    rcases member with rfl | rfl | rfl <;> exact ⟨_, rfl⟩

theorem mem_namesIn {exp : Exp} (name : String) (notVar : ∀ v, exp ≠ .var v) :
    name ∈ namesIn exp ↔ ∃ inner, .exp inner ∈ components (.exp exp) ∧ name ∈ namesIn inner := by
  cases exp with
  | var v => exact absurd rfl (notVar v)
  | _ => simp [namesIn, components, or_and_right, exists_or]

include descends

section Jumps
variable {inCondition : Bool} {jmp : Exp × DestType}

/-- Where there is no method, the jumps are those in the parts. -/
theorem mem_jmpVisitor_parts (node : Node) (notIf : ∀ cond yes no, node ≠ .stmt (.ifStmt cond yes no))
    (notJmp : ∀ arg, node ≠ .stmt (.jmp arg)) :
    jmp ∈ jmpVisitor visitor inCondition node ↔
      ∃ part ∈ components node, jmp ∈ jmpVisitor visitor inCondition part := by
  have default : jmpVisitor visitor inCondition node =
      (visitor.parts node).attach.flatMap fun part => jmpVisitor visitor inCondition part.1 := by
    rw [jmpVisitor]
    · exact notIf
    · exact notJmp
  simp only [default, List.mem_flatMap, List.mem_attach, true_and, Subtype.exists, descends node, exists_prop]

theorem mem_jmpVisitor_exp (exp : Exp) : jmp ∉ jmpVisitor visitor inCondition (.exp exp) := by
  intro member
  obtain ⟨part, inside, later⟩ := (mem_jmpVisitor_parts descends (.exp exp) nofun nofun).mp member
  obtain ⟨inner, rfl⟩ := components_exp inside
  exact mem_jmpVisitor_exp inner later
termination_by sizeOf (Node.exp exp)
decreasing_by exact visitor.smaller _ _ ((descends _ _).mpr inside)

mutual

theorem mem_jmpVisitor_stmt (inCondition : Bool) (stmt : Stmt) :
    jmp ∈ jmpVisitor visitor inCondition (.stmt stmt) ↔ jmp ∈ jumpsOf inCondition stmt :=
  match stmt with
  | .move v expr => by
    rw [mem_jmpVisitor_parts descends (.stmt (.move v expr)) nofun nofun]
    simp [components, mem_jmpVisitor_exp descends, jumpsOf]
  | .jmp arg => by rw [jmpVisitor, jumpsOf]
  | .whileStmt cond stmts => by
    rw [mem_jmpVisitor_parts descends (.stmt (.whileStmt cond stmts)) nofun nofun]
    simp [components, mem_jmpVisitor_exp descends, jumpsOf, mem_jmpVisitor_stmts inCondition stmts]
  | .ifStmt cond yes no => by
    rw [jmpVisitor, jumpsOf, List.mem_append, List.mem_append, mem_jmpVisitor_stmts true yes,
      mem_jmpVisitor_stmts true no]

theorem mem_jmpVisitor_stmts (inCondition : Bool) (stmts : List Stmt) :
    jmp ∈ jmpVisitor visitor inCondition (.stmts stmts) ↔ jmp ∈ jumpsIn inCondition stmts :=
  match stmts with
  | [] => by
    rw [mem_jmpVisitor_parts descends (.stmts []) nofun nofun]
    simp [components, jumpsIn]
  | stmt :: rest => by
    have first := mem_jmpVisitor_stmt inCondition stmt
    have later := mem_jmpVisitor_stmts inCondition rest
    rw [mem_jmpVisitor_parts descends (.stmts rest) nofun nofun] at later
    rw [mem_jmpVisitor_parts descends (.stmts (stmt :: rest)) nofun nofun]
    simp only [components, List.map_cons, List.mem_cons, exists_eq_or_imp, first, jumpsIn, List.mem_append] at later ⊢
    rw [later]

end

/-- The visitor collects the jumps that there are. -/
theorem mem_jumps (stmts : List Stmt) : jmp ∈ jumps visitor stmts ↔ jmp ∈ jumpsIn false stmts :=
  mem_jmpVisitor_stmts descends false stmts

end Jumps

section Accesses
variable (name : String)

theorem mem_accessVisitor_parts (node : Node) (notMove : ∀ v expr, node ≠ .stmt (.move v expr))
    (notVar : ∀ v, node ≠ .exp (.var v)) :
    (name ∈ (accessVisitor visitor node).1 ↔ ∃ part ∈ components node, name ∈ (accessVisitor visitor part).1) ∧
      (name ∈ (accessVisitor visitor node).2 ↔ ∃ part ∈ components node, name ∈ (accessVisitor visitor part).2) := by
  have default : accessVisitor visitor node =
      (((visitor.parts node).attach.map fun part => accessVisitor visitor part.1).flatMap Prod.fst,
        ((visitor.parts node).attach.map fun part => accessVisitor visitor part.1).flatMap Prod.snd) := by
    rw [accessVisitor]
    · exact notMove
    · exact notVar
  constructor
  · simp only [default, List.mem_flatMap, List.mem_map, List.mem_attach, true_and, Subtype.exists, descends node,
      exists_prop, exists_exists_and_eq_and]
  · simp only [default, List.mem_flatMap, List.mem_map, List.mem_attach, true_and, Subtype.exists, descends node,
      exists_prop, exists_exists_and_eq_and]

/-- The names in an expression are read, and nothing in it is written. -/
theorem mem_accessVisitor_exp (exp : Exp) :
    (name ∈ (accessVisitor visitor (.exp exp)).1 ↔ name ∈ namesIn exp) ∧
      name ∉ (accessVisitor visitor (.exp exp)).2 := by
  by_cases isVar : ∃ v, exp = .var v
  · obtain ⟨v, rfl⟩ := isVar
    rw [accessVisitor, namesIn]
    exact ⟨Iff.rfl, List.not_mem_nil⟩
  · have notVar : ∀ v, exp ≠ .var v := fun v same => isVar ⟨v, same⟩
    have parts := mem_accessVisitor_parts descends name (.exp exp) nofun fun v same => notVar v (Node.exp.inj same)
    have inner : ∀ part ∈ components (.exp exp), ∃ inner, part = .exp inner ∧
        (name ∈ (accessVisitor visitor part).1 ↔ name ∈ namesIn inner) ∧ name ∉ (accessVisitor visitor part).2 := by
      intro part inside
      obtain ⟨inner, rfl⟩ := components_exp inside
      exact ⟨inner, rfl, mem_accessVisitor_exp inner⟩
    rw [parts.1, parts.2, mem_namesIn name notVar]
    constructor
    · constructor
      · rintro ⟨part, inside, found⟩
        obtain ⟨exp', rfl, same, -⟩ := inner part inside
        exact ⟨exp', inside, same.mp found⟩
      · rintro ⟨exp', inside, found⟩
        obtain ⟨_, ⟨⟩, same, -⟩ := inner _ inside
        exact ⟨_, inside, same.mpr found⟩
    · rintro ⟨part, inside, found⟩
      obtain ⟨_, -, -, nothing⟩ := inner part inside
      exact nothing found
termination_by sizeOf (Node.exp exp)
decreasing_by exact visitor.smaller _ _ ((descends _ _).mpr inside)

mutual

theorem mem_accessVisitor_stmt (stmt : Stmt) :
    (name ∈ (accessVisitor visitor (.stmt stmt)).1 ↔ name ∈ (accessesOf stmt).1) ∧
      (name ∈ (accessVisitor visitor (.stmt stmt)).2 ↔ name ∈ (accessesOf stmt).2) :=
  match stmt with
  | .move v expr => by
    have value := mem_accessVisitor_exp descends name expr
    rw [accessVisitor, accessesOf]
    simp [value.1, value.2]
  | .jmp arg => by
    have target := mem_accessVisitor_exp descends name arg
    have parts := mem_accessVisitor_parts descends name (.stmt (.jmp arg)) nofun nofun
    rw [parts.1, parts.2]
    simp [components, accessesOf, target.1, target.2]
  | .whileStmt cond stmts => by
    have test := mem_accessVisitor_exp descends name cond
    have body := mem_accessVisitor_stmts stmts
    have parts := mem_accessVisitor_parts descends name (.stmt (.whileStmt cond stmts)) nofun nofun
    rw [parts.1, parts.2]
    simp [components, accessesOf, test.1, test.2, body.1, body.2]
  | .ifStmt cond yes no => by
    have test := mem_accessVisitor_exp descends name cond
    have inYes := mem_accessVisitor_stmts yes
    have inNo := mem_accessVisitor_stmts no
    have parts := mem_accessVisitor_parts descends name (.stmt (.ifStmt cond yes no)) nofun nofun
    rw [parts.1, parts.2]
    simp [components, accessesOf, test.1, test.2, inYes.1, inYes.2, inNo.1, inNo.2]

theorem mem_accessVisitor_stmts (stmts : List Stmt) :
    (name ∈ (accessVisitor visitor (.stmts stmts)).1 ↔ name ∈ (accessesIn stmts).1) ∧
      (name ∈ (accessVisitor visitor (.stmts stmts)).2 ↔ name ∈ (accessesIn stmts).2) :=
  match stmts with
  | [] => by
    have parts := mem_accessVisitor_parts descends name (.stmts []) nofun nofun
    rw [parts.1, parts.2]
    simp [components, accessesIn]
  | stmt :: rest => by
    have first := mem_accessVisitor_stmt stmt
    have later := mem_accessVisitor_stmts rest
    have partsLater := mem_accessVisitor_parts descends name (.stmts rest) nofun nofun
    have parts := mem_accessVisitor_parts descends name (.stmts (stmt :: rest)) nofun nofun
    rw [partsLater.1, partsLater.2] at later
    rw [parts.1, parts.2]
    simp only [components, List.map_cons, List.mem_cons, exists_eq_or_imp, first, accessesIn, List.mem_append]
      at later ⊢
    rw [later.1, later.2]
    exact ⟨Iff.rfl, Iff.rfl⟩

end

/-- The visitor collects the names that are read, and those that are written. -/
theorem mem_accesses (stmts : List Stmt) :
    (name ∈ (accesses visitor stmts).1 ↔ name ∈ (accessesIn stmts).1) ∧
      (name ∈ (accesses visitor stmts).2 ↔ name ∈ (accessesIn stmts).2) :=
  mem_accessVisitor_stmts descends name stmts

end Accesses

end Collected

end Qira.BapVisitors
