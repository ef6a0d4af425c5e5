import ExprLang.Proofs.Tree.Built
import ExprLang.Proofs.Tree.Entries

/-!
# The nodes of a program

Names, expressions, blocks and statements are the nodes of a tree, and a program contains its
statements and whatever is directly inside of a node that it contains. What a node hands on to those
inside of it holds of all nodes of a program, if it holds of the statements: being built from tokens
(`Program.BuiltFrom.node`), and having its tokens in a list of entries (`Program.Contains.entries`).
-/

set_option autoImplicit false

namespace ExprLang

/-- A node of a tree. -/
inductive Node where
  | name (x : Identifier)
  | expression (e : Expr)
  | block (b : Block)
  | statement (s : Stmt)

namespace Node

/-- The nodes directly inside of a node. -/
def children : Node → List Node
  | name _ => []
  | expression (.identifier x) => [name x]
  | expression (.integer _ _) | expression (.boolean _ _) => []
  | expression (.unary _ _ right) => [expression right]
  | expression (.binary _ left _ right) => [expression left, expression right]
  | expression (.conditional _ condition consequence alternative) =>
    expression condition :: block consequence :: alternative.toList.map block
  | expression (.call _ callee arguments) => expression callee :: arguments.map expression
  | expression (.function _ parameters body) => block body :: parameters.map name
  | block (.mk _ statements) => statements.map statement
  | statement (.binding _ x value) => [name x, expression value]
  | statement (.result _ value) | statement (.expression _ value) => [expression value]

end Node

/-- The node is one of the program, at any depth. -/
inductive Program.Contains (p : Program) : Node → Prop
  | top {s : Stmt} : s ∈ p.statements → p.Contains (.statement s)
  | inside {n m : Node} : p.Contains n → m ∈ n.children → p.Contains m

/-! ## What nodes are built from -/

/-- The node is built from tokens with the property `T`, and so are those inside of it. -/
def Node.BuiltFrom (T : Token → Prop) : Node → Prop
  | name x => x.BuiltFrom T
  | expression e => e.BuiltFrom T
  | block b => b.BuiltFrom T
  | statement s => s.BuiltFrom T

theorem builtFromElse_iff {T : Token → Prop} {b : Option Block} :
    BuiltFromElse T b ↔ ∀ block ∈ b.toList, block.BuiltFrom T := by
  cases b <;> simp [BuiltFromElse]

theorem Node.BuiltFrom.child {T : Token → Prop} {n m : Node} (h : n.BuiltFrom T)
    (hm : m ∈ n.children) : m.BuiltFrom T := by
  rcases n with x | e | ⟨t, ss⟩ | s
  · cases hm
  · cases e with
    | identifier x =>
      cases List.mem_singleton.1 hm
      exact h
    | integer | boolean => cases hm
    | unary t operator right =>
      cases List.mem_singleton.1 hm
      exact h.2.2.2
    | binary t left operator right =>
      obtain ⟨-, -, -, hleft, hright⟩ := h
      rcases List.mem_cons.1 hm with rfl | hm
      · exact hleft
      · cases List.mem_singleton.1 hm
        exact hright
    | conditional t condition consequence alternative =>
      obtain ⟨-, -, hcondition, hconsequence, halternative⟩ := h
      rcases List.mem_cons.1 hm with rfl | hm
      · exact hcondition
      rcases List.mem_cons.1 hm with rfl | hm
      · exact hconsequence
      · obtain ⟨b, hb, rfl⟩ := List.mem_map.1 hm
        exact builtFromElse_iff.1 halternative b hb
    | call t callee arguments =>
      obtain ⟨-, -, hcallee, harguments⟩ := h
      rcases List.mem_cons.1 hm with rfl | hm
      · exact hcallee
      · obtain ⟨e, he, rfl⟩ := List.mem_map.1 hm
        exact builtFromEach_iff.1 harguments e he
    | function t parameters body =>
      obtain ⟨-, -, hparameters, hbody⟩ := h
      rcases List.mem_cons.1 hm with rfl | hm
      · exact hbody
      · obtain ⟨x, hx, rfl⟩ := List.mem_map.1 hm
        exact hparameters x hx
  · obtain ⟨s, hs, rfl⟩ := List.mem_map.1 hm
    exact builtFromBody_iff.1 h.2.2 s hs
  · cases s with
    | binding t x value =>
      obtain ⟨-, -, hx, hvalue⟩ := h
      rcases List.mem_cons.1 hm with rfl | hm
      · exact hx
      · cases List.mem_singleton.1 hm
        exact hvalue
    | result t value =>
      cases List.mem_singleton.1 hm
      exact h.2.2
    | expression t value =>
      cases List.mem_singleton.1 hm
      exact h

/-- All nodes of a program are built from such tokens as the program is. -/
theorem Program.BuiltFrom.node {T : Token → Prop} {p : Program} {n : Node} (h : p.BuiltFrom T)
    (hn : p.Contains n) : n.BuiltFrom T := by
  induction hn with
  | top hs => exact builtFromBody_iff.1 h _ hs
  | inside _ hm ih => exact ih.child hm

/-! ## Where nodes are listed -/

/-- The entries of a node and those inside of it. -/
def Node.entries : Node → List Entry
  | name x => [.node x.token]
  | expression e => e.entries
  | block b => b.entries
  | statement s => s.entries

theorem entriesEach_eq (es : List Expr) : entriesEach es = es.flatMap Expr.entries := by
  induction es with
  | nil => rfl
  | cons e es ih => rw [entriesEach, ih, List.flatMap_cons]

theorem entriesBody_eq (ss : List Stmt) : entriesBody ss = ss.flatMap Stmt.entries := by
  induction ss with
  | nil => rfl
  | cons s ss ih => rw [entriesBody, ih, List.flatMap_cons]

theorem entriesElse_eq (b : Option Block) : entriesElse b = b.toList.flatMap Block.entries := by
  cases b <;> simp [entriesElse]

/-- Apart from the entry of its own token, a node has those of the nodes inside of it. -/
theorem Node.mem_entries_of_child {n m : Node} (hm : m ∈ n.children) {entry : Entry}
    (h : entry ∈ m.entries) : entry ∈ n.entries := by
  rcases n with x | e | ⟨t, ss⟩ | s
  · cases hm
  · cases e with
    | identifier x =>
      cases List.mem_singleton.1 hm
      exact h
    | integer | boolean => cases hm
    | unary t operator right =>
      cases List.mem_singleton.1 hm
      exact List.mem_cons_of_mem _ h
    | binary t left operator right =>
      rcases List.mem_cons.1 hm with rfl | hm
      · exact List.mem_append_left _ h
      · cases List.mem_singleton.1 hm
        exact List.mem_append_right _ (List.mem_cons_of_mem _ h)
    | conditional t condition consequence alternative =>
      refine List.mem_cons_of_mem _ ?_
      rcases List.mem_cons.1 hm with rfl | hm
      · exact List.mem_append_left _ h
      refine List.mem_append_right _ ?_
      rcases List.mem_cons.1 hm with rfl | hm
      · exact List.mem_append_left _ h
      · obtain ⟨b, hb, rfl⟩ := List.mem_map.1 hm
        exact List.mem_append_right _ (entriesElse_eq _ ▸ List.mem_flatMap.2 ⟨b, hb, h⟩)
    | call t callee arguments =>
      rcases List.mem_cons.1 hm with rfl | hm
      · exact List.mem_append_left _ h
      · obtain ⟨e, he, rfl⟩ := List.mem_map.1 hm
        refine List.mem_append_right _ (List.mem_cons_of_mem _ ?_)
        exact entriesEach_eq _ ▸ List.mem_flatMap.2 ⟨e, he, h⟩
    | function t parameters body =>
      refine List.mem_cons_of_mem _ ?_
      rcases List.mem_cons.1 hm with rfl | hm
      · exact List.mem_append_right _ h
      · obtain ⟨x, hx, rfl⟩ := List.mem_map.1 hm
        cases List.mem_singleton.1 h
        exact List.mem_append_left _ (List.mem_map_of_mem hx)
  · obtain ⟨s, hs, rfl⟩ := List.mem_map.1 hm
    exact List.mem_cons_of_mem _ (entriesBody_eq _ ▸ List.mem_flatMap.2 ⟨s, hs, h⟩)
  · cases s with
    | binding t x value =>
      refine List.mem_cons_of_mem _ ?_
      rcases List.mem_cons.1 hm with rfl | hm
      · cases List.mem_singleton.1 h
        exact List.mem_cons_self
      · cases List.mem_singleton.1 hm
        exact List.mem_cons_of_mem _ h
    | result t value | expression t value =>
      cases List.mem_singleton.1 hm
      exact List.mem_cons_of_mem _ h

/-- All that is listed for a node of a program is listed for the program. -/
theorem Program.Contains.entries {p : Program} {n : Node} (hn : p.Contains n) {entry : Entry}
    (h : entry ∈ n.entries) : entry ∈ p.entries := by
  induction hn with
  | top hs =>
    rw [Program.entries, entriesBody_eq]
    exact List.mem_flatMap.2 ⟨_, hs, h⟩
  | inside _ hm ih => exact ih (Node.mem_entries_of_child hm h)

end ExprLang
