import Mathlib.Data.List.Chain
import Mathlib.Logic.Function.Basic
import Slang.Proofs.Labels

/-!
# The displayed tree can be read back

* `Row`, `Outline.rows` — one line of the display: a node, the nodes above it, and which of these
  are the last below their own parents.
* `Outline.assemble` — the text put together piece by piece, a line break only between two pieces.
* `Row.code_of_line` — depth and label of a node can be read off its line.
* `Sketch`, `Outline.sketch` — the shape of a tree with its labels.
* `Outline.sketch_of_codes` — depths and labels in pre-order determine the tree.

Principal result: `render_faithful` — of every node of a compiled program the display has one line
for each node of its subtree, and nothing else is displayed in the same way.
-/

set_option autoImplicit false

namespace Slang

variable {frames : Nat}

/-! ## Rows -/

/-- A line of a displayed tree: a node, the nodes above it from the root on, and for all of them
whether they are the last below their parent. -/
structure Row where
  above : List (Outline × Bool)
  last : Bool
  node : Outline

namespace Row

/-- What stands before the connector: one block for each node above. -/
def blocks (r : Row) : List String := r.above.map fun a => Outline.extension a.2

/-- The nodes above, from the root on, and the node itself. -/
def path (r : Row) : List Outline := r.above.map (·.1) ++ [r.node]

/-- The text of a line. -/
def line (r : Row) : String :=
  String.join r.blocks ++ Outline.connector r.last ++ r.node.label

end Row

namespace Outline

mutual

/-- The lines of a node and of the nodes below it, in pre-order. -/
def rows (above : List (Outline × Bool)) (last : Bool) : Outline → List Row
  | node kind label m ty children =>
    ⟨above, last, node kind label m ty children⟩ ::
      rowsBelow (above ++ [(node kind label m ty children, last)]) children

/-- The lines of the children of a node. -/
def rowsBelow (above : List (Outline × Bool)) : List Outline → List Row
  | [] => []
  | c :: rest => rows above rest.isEmpty c ++ rowsBelow above rest

end

mutual

theorem rows_node : ∀ (above : List (Outline × Bool)) (last : Bool) (o : Outline),
    (o.rows above last).map Row.node = o.nodes
  | above, last, node kind label m ty children => by
    rw [rows, nodes, List.map_cons, rowsBelow_node]

theorem rowsBelow_node : ∀ (above : List (Outline × Bool)) (os : List Outline),
    (rowsBelow above os).map Row.node = nodesBelow os
  | above, [] => rfl
  | above, o :: rest => by
    rw [rowsBelow, nodesBelow, List.map_append, rows_node, rowsBelow_node]

end

/-- The second node is a child of the first. -/
def Holds (o c : Outline) : Prop := c ∈ o.children

theorem isChain_child {nodes : List Outline} {o c : Outline}
    (h : List.IsChain Holds (nodes ++ [o])) (hc : o.Holds c) :
    List.IsChain Holds (nodes ++ [o] ++ [c]) := by
  refine h.append (List.isChain_singleton c) ?_
  simpa using hc

mutual

/-- The nodes above a line are the way down to its node. -/
theorem rows_path : ∀ (above : List (Outline × Bool)) (last : Bool) (o : Outline),
    List.IsChain Holds (above.map (·.1) ++ [o]) →
    ∀ r ∈ o.rows above last, List.IsChain Holds r.path ∧ above.map (·.1) ++ [o] <+: r.path
  | above, last, node kind label m ty children, h => by
    rw [rows, List.forall_mem_cons]
    refine ⟨⟨h, List.prefix_refl _⟩, fun r hr => ?_⟩
    have hbelow := rowsBelow_path (above ++ [(node kind label m ty children, last)]) children
      (fun c hc => by
        rw [List.map_append]
        exact isChain_child h hc) r hr
    rw [List.map_append] at hbelow
    exact hbelow

theorem rowsBelow_path : ∀ (above : List (Outline × Bool)) (os : List Outline),
    (∀ o ∈ os, List.IsChain Holds (above.map (·.1) ++ [o])) →
    ∀ r ∈ rowsBelow above os, List.IsChain Holds r.path ∧ above.map (·.1) <+: r.path
  | above, [], _ => by simp [rowsBelow]
  | above, o :: rest, h => by
    rw [List.forall_mem_cons] at h
    rw [rowsBelow, List.forall_mem_append]
    refine ⟨fun r hr => ?_, rowsBelow_path above rest h.2⟩
    obtain ⟨hchain, hstart⟩ := rows_path above _ o h.1 r hr
    exact ⟨hchain, (List.prefix_append _ _).trans hstart⟩

end

/-- The blocks of the nodes above, in one text. -/
def indentOf (above : List (Outline × Bool)) : String :=
  String.join (above.map fun a => extension a.2)

theorem indentOf_append (above : List (Outline × Bool)) (o : Outline) (last : Bool) :
    indentOf (above ++ [(o, last)]) = indentOf above ++ extension last := by
  simp [indentOf, String.join_append]

mutual

/-- The lines of a tree are those of its rows. -/
theorem lines_eq : ∀ (above : List (Outline × Bool)) (last : Bool) (o : Outline),
    lines (indentOf above) last o = (o.rows above last).map Row.line
  | above, last, node kind label m ty children => by
    rw [lines, rows, List.map_cons, ← linesBelow_eq, indentOf_append]
    rfl

theorem linesBelow_eq : ∀ (above : List (Outline × Bool)) (os : List Outline),
    linesBelow (indentOf above) os = (rowsBelow above os).map Row.line
  | above, [] => rfl
  | above, o :: rest => by
    rw [linesBelow, rowsBelow, List.map_append, lines_eq, linesBelow_eq]

end

/-! ## The text put together piece by piece -/

mutual

/-- The text of a tree, assembled from the texts of its children. A node without a label leaves no
line of its own. -/
def assemble (indent : String) (last : Bool) : Outline → String
  | node _ label _ _ children =>
    (if label = "" then "" else indent ++ connector last ++ label) ++
      (if children.isEmpty ∨ label = "" then "" else "\n") ++
      assembleBelow (indent ++ extension last) children

/-- The texts of the children of a node, with a line break between each two of them. -/
def assembleBelow (indent : String) : List Outline → String
  | [] => ""
  | c :: rest =>
    assemble indent rest.isEmpty c ++ (if rest.isEmpty then "" else "\n") ++
      assembleBelow indent rest

end

theorem lines_ne_nil (indent : String) (last : Bool) (o : Outline) : o.lines indent last ≠ [] := by
  cases o
  simp [lines]

theorem linesBelow_ne_nil (indent : String) {os : List Outline} (h : os ≠ []) :
    linesBelow indent os ≠ [] := by
  cases os with
  | nil => exact absurd rfl h
  | cons o rest => simp [linesBelow, lines_ne_nil]

mutual

/-- Where every node has a label, the pieces are lines with line breaks between them. -/
theorem assemble_eq : ∀ (indent : String) (last : Bool) (o : Outline),
    (∀ n ∈ o.nodes, n.label ≠ "") →
      o.assemble indent last = "\n".intercalate (o.lines indent last)
  | indent, last, node kind label m ty children, h => by
    rw [nodes, List.forall_mem_cons] at h
    have hlabel : label ≠ "" := h.1
    rw [assemble, assembleBelow_eq _ _ h.2, lines, if_neg hlabel]
    cases children with
    | nil => simp [linesBelow]
    | cons c rest =>
      have hne := linesBelow_ne_nil (indent ++ extension last) (List.cons_ne_nil c rest)
      simp [String.intercalate_cons_of_ne_nil hne, hlabel, String.append_assoc]

theorem assembleBelow_eq : ∀ (indent : String) (os : List Outline),
    (∀ n ∈ nodesBelow os, n.label ≠ "") →
      assembleBelow indent os = "\n".intercalate (linesBelow indent os)
  | indent, [], _ => by simp [assembleBelow, linesBelow]
  | indent, o :: rest, h => by
    rw [nodesBelow, List.forall_mem_append] at h
    rw [assembleBelow, assemble_eq _ _ o h.1, assembleBelow_eq _ rest h.2, linesBelow]
    cases rest with
    | nil => simp [linesBelow]
    | cons c rest =>
      rw [String.intercalate_append_of_ne_nil (lines_ne_nil indent _ o)
        (linesBelow_ne_nil indent (List.cons_ne_nil c rest))]
      rfl

end

end Outline

/-! ## Reading a line back -/

/-- The shape of a tree, with its labels. -/
inductive Sketch where
  | node (label : String) (children : List Sketch)
  deriving Repr

/-- The depth and the label of the node on a line. -/
def Row.code (r : Row) : Nat × String := (r.above.length, r.node.label)

namespace Outline

theorem length_connector (last : Bool) : (connector last).length = 4 := by cases last <;> rfl

theorem length_extension (last : Bool) : (extension last).length = 4 := by cases last <;> rfl

/-- A block starts like no connector. -/
theorem extension_head (last : Bool) : ∃ c cs, (extension last).toList = c :: cs ∧
    (c = ' ' ∨ c = '│') := by
  cases last with
  | true => exact ⟨_, _, rfl, .inl rfl⟩
  | false => exact ⟨_, _, rfl, .inr rfl⟩

theorem connector_head (last : Bool) : ∃ c cs, (connector last).toList = c :: cs ∧
    (c = '└' ∨ c = '├') := by
  cases last with
  | true => exact ⟨_, _, rfl, .inl rfl⟩
  | false => exact ⟨_, _, rfl, .inr rfl⟩

theorem extension_ne_connector (last last' : Bool) (cs ds : List Char) :
    (extension last).toList ++ cs ≠ (connector last').toList ++ ds := by
  obtain ⟨c, block, hblock, hc⟩ := extension_head last
  obtain ⟨d, stem, hstem, hd⟩ := connector_head last'
  rw [hblock, hstem]
  intro h
  obtain rfl : c = d := (List.cons.inj h).1
  rcases hc with rfl | rfl <;> simp at hd

end Outline

/-- The characters of a line. -/
theorem Row.toList_line (r : Row) : r.line.toList =
    (r.above.flatMap fun a => (Outline.extension a.2).toList) ++
      ((Outline.connector r.last).toList ++ r.node.label.toList) := by
  simp [Row.line, Row.blocks, String.toList_join, List.flatMap_def, Function.comp_def]

/-- Blocks end where the first connector stands, so that two lines with one text have equally many
blocks and one label, whatever the label is made of. -/
theorem blocks_unique {last last' : Bool} {label label' : List Char} :
    ∀ above above' : List (Outline × Bool),
      (above.flatMap fun a => (Outline.extension a.2).toList) ++
          ((Outline.connector last).toList ++ label) =
        (above'.flatMap fun a => (Outline.extension a.2).toList) ++
          ((Outline.connector last').toList ++ label') →
      above.length = above'.length ∧ label = label'
  | [], [], h => by
    have hlength : (Outline.connector last).toList.length =
        (Outline.connector last').toList.length := by
      rw [String.length_toList, String.length_toList, Outline.length_connector,
        Outline.length_connector]
    simp only [List.flatMap_nil, List.nil_append] at h
    exact ⟨rfl, (List.append_inj h hlength).2⟩
  | [], a :: above', h => by
    rw [List.flatMap_cons, List.append_assoc] at h
    exact (Outline.extension_ne_connector _ _ _ _ h.symm).elim
  | a :: above, [], h => by
    rw [List.flatMap_cons, List.append_assoc] at h
    exact (Outline.extension_ne_connector _ _ _ _ h).elim
  | a :: above, a' :: above', h => by
    rw [List.flatMap_cons, List.flatMap_cons, List.append_assoc, List.append_assoc] at h
    have hlength : (Outline.extension a.2).toList.length =
        (Outline.extension a'.2).toList.length := by
      rw [String.length_toList, String.length_toList, Outline.length_extension,
        Outline.length_extension]
    obtain ⟨habove, hlabel⟩ := blocks_unique above above' (List.append_inj h hlength).2
    exact ⟨congrArg (· + 1) habove, hlabel⟩

/-- **A line can be read back**: from its text follow the depth of the node and its label. -/
theorem Row.code_of_line {r r' : Row} (h : r.line = r'.line) : r.code = r'.code := by
  have htexts := congrArg String.toList h
  rw [Row.toList_line, Row.toList_line] at htexts
  obtain ⟨hdepth, hlabel⟩ := blocks_unique _ _ htexts
  exact Prod.ext hdepth (String.toList_injective hlabel)

/-! ## Reading a tree back -/

namespace Outline

mutual

/-- The shape of a tree, with its labels. -/
def sketch : Outline → Sketch
  | node _ label _ _ children => .node label (sketches children)

/-- The shapes of a list of trees. -/
def sketches : List Outline → List Sketch
  | [] => []
  | o :: rest => sketch o :: sketches rest

end

/-- The first line is not as deep as this, or there is none. -/
def Leaves (depth : Nat) (codes : List (Nat × String)) : Prop := ∀ c ∈ codes.head?, c.1 < depth

theorem leaves_nil {depth : Nat} : Leaves depth [] := by simp [Leaves]

theorem leaves_rows {above : List (Outline × Bool)} {last : Bool} (o : Outline)
    (more : List (Nat × String)) :
    Leaves (above.length + 1) ((o.rows above last).map Row.code ++ more) := by
  cases o
  simp [Leaves, rows, Row.code]

theorem Leaves.succ {depth : Nat} {codes : List (Nat × String)} (h : Leaves depth codes) :
    Leaves (depth + 1) codes := fun c hc => Nat.lt_succ_of_lt (h c hc)

theorem leaves_rowsBelow {above : List (Outline × Bool)} (os : List Outline)
    {more : List (Nat × String)} (h : Leaves above.length more) :
    Leaves (above.length + 1) ((rowsBelow above os).map Row.code ++ more) := by
  cases os with
  | nil => exact h.succ
  | cons o rest =>
    rw [rowsBelow, List.map_append, List.append_assoc]
    exact leaves_rows o _

mutual

/-- Depths and labels in pre-order determine a tree and what follows it. -/
theorem sketch_of_codes : ∀ (o o' : Outline) {above above' : List (Outline × Bool)}
    {last last' : Bool} {more more' : List (Nat × String)}, above.length = above'.length →
    Leaves (above.length + 1) more → Leaves (above.length + 1) more' →
    (o.rows above last).map Row.code ++ more = (o'.rows above' last').map Row.code ++ more' →
      o.sketch = o'.sketch ∧ more = more'
  | node kind label m ty children, node kind' label' m' ty' children', above, above', last, last',
      more, more', hdepth, hmore, hmore', h => by
    simp only [rows, List.map_cons, List.cons_append, List.cons.injEq] at h
    obtain ⟨hlabel, hbelow⟩ := h
    have hsame : label = label' := congrArg Prod.snd hlabel
    obtain ⟨hchildren, hrest⟩ := sketches_of_codes children children'
      (by simp [hdepth]) (by simpa using hmore) (by simpa using hmore') hbelow
    rw [sketch, sketch, hchildren, hsame]
    exact ⟨rfl, hrest⟩

theorem sketches_of_codes : ∀ (os os' : List Outline) {above above' : List (Outline × Bool)}
    {more more' : List (Nat × String)}, above.length = above'.length →
    Leaves above.length more → Leaves above.length more' →
    (rowsBelow above os).map Row.code ++ more = (rowsBelow above' os').map Row.code ++ more' →
      sketches os = sketches os' ∧ more = more'
  | [], [], above, above', more, more', hdepth, hmore, hmore', h => ⟨rfl, h⟩
  | [], node .. :: rest, above, above', more, more', hdepth, hmore, hmore', h => by
    -- What follows would start with a line of the depth of the list.
    have hhead : more = _ := h
    rw [hhead] at hmore
    simp [Leaves, rowsBelow, rows, Row.code, hdepth] at hmore
  | node .. :: rest, [], above, above', more, more', hdepth, hmore, hmore', h => by
    have hhead : more' = _ := h.symm
    rw [hhead] at hmore'
    simp [Leaves, rowsBelow, rows, Row.code] at hmore'
  | o :: rest, o' :: rest', above, above', more, more', hdepth, hmore, hmore', h => by
    simp only [rowsBelow, List.map_append, List.append_assoc] at h
    obtain ⟨hfirst, hbehind⟩ := sketch_of_codes o o' hdepth (leaves_rowsBelow rest hmore)
      (hdepth ▸ leaves_rowsBelow rest' (hdepth ▸ hmore')) h
    obtain ⟨hrest, hmore⟩ := sketches_of_codes rest rest' hdepth hmore hmore' hbehind
    rw [sketches, sketches, hfirst, hrest]
    exact ⟨rfl, hmore⟩

end

/-- **Lines determine the tree.** -/
theorem sketch_of_lines {o o' : Outline}
    (h : (o.rows [] true).map Row.line = (o'.rows [] true).map Row.line) :
    o.sketch = o'.sketch := by
  have hfactors : Function.FactorsThrough Row.code Row.line := fun r r' hline =>
    Row.code_of_line hline
  obtain ⟨read, hread⟩ := (Function.factorsThrough_iff Row.code).mp hfactors
  have hcodes : (o.rows [] true).map Row.code ++ [] = (o'.rows [] true).map Row.code ++ [] := by
    rw [hread, ← List.map_map, ← List.map_map, h]
  exact (sketch_of_codes o o' rfl leaves_nil leaves_nil hcodes).1

end Outline

/-! ## The display of compiled programs -/

theorem oneLine_line {r : Row} (h : OneLine r.node.label) : OneLine r.line := by
  have hblocks : ∀ above : List (Outline × Bool),
      OneLine (String.join (above.map fun a => Outline.extension a.2)) := by
    intro above
    induction above with
    | nil => decide
    | cons a rest ih =>
      rw [List.map_cons, String.join_cons, oneLine_append]
      refine ⟨?_, ih⟩
      cases a.2 <;> decide
  have hconnector : OneLine (Outline.connector r.last) := by cases r.last <;> decide
  exact oneLine_append.mpr ⟨oneLine_append.mpr ⟨hblocks _, hconnector⟩, h⟩

namespace Outline

theorem Legible.of_mem {o n : Outline} (h : o.Legible) (hn : n ∈ o.nodes) : n.Legible :=
  fun m hm => h m (nodes_trans hm hn)

/-- Split at line breaks, the display of a tree is its rows. -/
theorem Legible.split_render {o : Outline} (h : o.Legible) :
    (o.render.split '\n').toList.map (·.copy) = (o.rows [] true).map Row.line := by
  have hrows : ∀ r ∈ o.rows [] true, OneLine r.line := by
    intro r hr
    have hnode : r.node ∈ o.nodes := by
      rw [← rows_node [] true]
      exact List.mem_map_of_mem hr
    exact oneLine_line (h _ hnode).2
  have hlines : o.lines "" true = (o.rows [] true).map Row.line := lines_eq [] true o
  have hfree : ∀ s ∈ (o.rows [] true).map Row.line, '\n' ∉ s.toList := by
    rw [List.forall_mem_map]
    exact fun r hr hbreak => (hrows r hr _ hbreak).2 rfl
  have hne : (o.rows [] true).map Row.line ≠ [] := hlines ▸ lines_ne_nil "" true o
  have hsplit := String.toList_split_intercalate hfree
  rw [if_neg hne] at hsplit
  rw [render, hlines]
  exact hsplit

end Outline

/-- **The display is faithful.** Take any node of a program that was compiled. Every label in its
subtree is a line and not empty, and the text is the one that is assembled piece by piece. Split at
line breaks, it has exactly one line for each node of the subtree, in pre-order: a block of four
characters for each node on the way down to this one, a connector of four characters, and the label.
And of all nodes of all programs that were compiled only those are displayed in the same way that
have the same shape and the same labels. -/
theorem render_faithful {source : String} {program : Program}
    (h : Program.compile frames source = .ok program) {o : Outline}
    (ho : o ∈ program.outline.nodes) :
    o.Legible ∧ o.render = o.assemble "" true ∧
      (o.render.split '\n').toList.map (·.copy) = (o.rows [] true).map Row.line ∧
      (o.rows [] true).map Row.node = o.nodes ∧
      (∀ r ∈ o.rows [] true,
        (List.IsChain Outline.Holds r.path ∧ [o] <+: r.path) ∧
          r.path.length = r.blocks.length + 1 ∧ (∀ b ∈ r.blocks, b.length = 4) ∧
          (Outline.connector r.last).length = 4 ∧
          r.line = String.join r.blocks ++ Outline.connector r.last ++ r.node.label) ∧
      ∀ {frames' : Nat} {source' : String} {program' : Program},
        Program.compile frames' source' = .ok program' →
          ∀ {o' : Outline}, o' ∈ program'.outline.nodes → o.render = o'.render →
            o.sketch = o'.sketch := by
  have hlegible := (compile_legible h).of_mem ho
  refine ⟨hlegible, ?_, hlegible.split_render, Outline.rows_node [] true o, ?_, ?_⟩
  · exact (Outline.assemble_eq "" true o fun n hn => (hlegible n hn).1).symm
  · intro r hr
    refine ⟨Outline.rows_path [] true o (List.isChain_singleton o) r hr, ?_, ?_,
      Outline.length_connector _, rfl⟩
    · simp [Row.path, Row.blocks]
    · exact List.forall_mem_map.mpr fun a _ => Outline.length_extension a.2
  · intro frames' source' program' h' o' ho' hrender
    have hlegible' := (compile_legible h').of_mem ho'
    apply Outline.sketch_of_lines
    rw [← hlegible.split_render, ← hlegible'.split_render, hrender]

/-- A text that looks like a line of the display stays within its own line. -/
theorem render_faithful_connectors :
    ∃ program, Program.compile 100 "PRINT \"└── x\" + \"│   \";" = .ok program ∧
      (program.outline.render.split '\n').toList.map (·.copy) =
        ["└── Module",
          "    └── FUNCTION NUMERIC MAIN()",
          "        └── Body",
          "            └── Print Statement",
          "                └── Binary operator : +",
          "                    ├── STRING : \"└── x\"",
          "                    └── STRING : \"│   \""] := by
  obtain ⟨program, hprogram, hlines⟩ : ∃ program,
      Program.compile 100 "PRINT \"└── x\" + \"│   \";" = .ok program ∧
      (program.outline.rows [] true).map Row.line =
        ["└── Module",
          "    └── FUNCTION NUMERIC MAIN()",
          "        └── Body",
          "            └── Print Statement",
          "                └── Binary operator : +",
          "                    ├── STRING : \"└── x\"",
          "                    └── STRING : \"│   \""] := by
    apply ok_of_toOption
    decide +kernel
  obtain ⟨-, -, hsplit, -⟩ := render_faithful hprogram (Outline.self_mem_nodes program.outline)
  exact ⟨program, hprogram, hsplit.trans hlines⟩

end Slang
