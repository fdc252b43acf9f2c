import Mathlib.Data.List.FinRange
import Mathlib.Logic.Function.Basic

/-!
# Drawing an xarray

`xarray.c` stores an entry and draws the nodes of the tree: a line for each node, with a letter for each of its slots.
The letters are collected in static rows, one for each depth, that are never cleared.
-/

namespace MmExper.Kernel.Xarray

inductive Entry where
  | null
  | value
  | node (shift : Nat) (slots : Fin 64 → Entry)
  /-- `XA_ZERO_ENTRY`. -/
  | zero
  /-- A pointer, or an internal entry that is no node. -/
  | other (bits : BitVec 64)

def maxDepth : Nat := 5

/-- A line of the log: `IVG: %d: %02d: %s`. -/
structure Drawn where
  depth : Nat
  shift : Nat
  row : List Char
  deriving DecidableEq

abbrev Rows := Nat → List Char

def put (row : List Char) (offset : Nat) (c : Char) : List Char := row.take offset ++ c :: row.drop (offset + 1)

/-- The variables of `examine_node()`, the log and the rows. -/
structure Drawing where
  offset : Nat
  count : Nat
  log : List Drawn
  buf : Rows

/-- `buf[depth][offset++] = c`. -/
def Drawing.put (s : Drawing) (depth : Nat) (c : Char) : Drawing :=
  { s with offset := s.offset + 1, buf := Function.update s.buf depth (Xarray.put (s.buf depth) s.offset c) }

/-- The body of the loop, for an entry and what `examine_node()` does with it. -/
def examineSlot (depth : Nat) (entry : Entry) (examine : Rows → Option (Nat × List Drawn × Rows)) (s : Drawing) :
    Option Drawing :=
  match entry with
  | .null => some (s.put depth '.')
  | .value => some (s.put depth '*')
  | .node _ _ =>
    let s := s.put depth 'N'
    (examine s.buf).map fun (count, log, buf) => { s with count := s.count + count, log := s.log ++ log, buf := buf }
  | .zero | .other _ => some s

/-- `examine_node()`: the number of nodes, the lines and the rows after. `none` if it writes outside of `buf`. -/
def examineNode : Entry → Nat → Rows → Option (Nat × List Drawn × Rows)
  | .node shift slots, depth, buf =>
    if depth < maxDepth then
      ((List.finRange 64).foldlM
        (fun s i => examineSlot depth (slots i) (examineNode (slots i) (depth + 1)) s) ⟨0, 0, [], buf⟩).map fun s =>
          (s.count + 1, s.log ++ [⟨depth, shift, s.buf depth⟩], s.buf)
    else none
  | _, _, buf => some (0, [], buf)

inductive Report where
  | nodes (lines : List Drawn) (count : Nat)
  /-- `[.]` -/
  | empty
  /-- `[*]` -/
  | value
  | unrecognised (bits : BitVec 64)

/-- `examine_xa()`, for the head of the xarray. -/
def examineXa (head : Entry) (buf : Rows) : Option Report :=
  match head with
  | .node _ _ => (examineNode head 0 buf).map fun (count, log, _) => .nodes log count
  | .null | .zero => some .empty
  | .value => some .value
  | .other bits => some (.unrecognised bits)

/-! ## What is drawn

The drawing without rows: the letters of each node, children first. What a row shows is that laid
over what was drawn there before. -/

def Entry.letter : Entry → Option Char
  | .null => some '.'
  | .value => some '*'
  | .node _ _ => some 'N'
  | .zero | .other _ => none

def letters (slots : Fin 64 → Entry) : List Char := (List.finRange 64).filterMap fun i => (slots i).letter

/-- The nodes, children before parents, with their letters. -/
def Entry.nodes : Entry → Nat → List Drawn
  | .node shift slots, depth =>
    ((List.finRange 64).flatMap fun i => (slots i).nodes (depth + 1)) ++ [⟨depth, shift, letters slots⟩]
  | _, _ => []

/-- There are at most `n` nodes on the way to any entry. -/
def Entry.Fits : Entry → Nat → Prop
  | .node _ _, 0 => False
  | .node _ slots, n + 1 => ∀ i, (slots i).Fits n
  | _, _ => True

def overlay (ls row : List Char) : List Char := ls ++ row.drop ls.length

def rowsAfter (buf : Rows) (ns : List Drawn) : Rows :=
  ns.foldl (fun buf n => Function.update buf n.depth (overlay n.row (buf n.depth))) buf

def lines : Rows → List Drawn → List Drawn
  | _, [] => []
  | buf, n :: ns => { n with row := overlay n.row (buf n.depth) } :: lines (rowsAfter buf [n]) ns

variable {buf : Rows} {ns ns' : List Drawn} {d depth n : Nat} {entry : Entry} {slots : Fin 64 → Entry}
  {row pre rest : List Char} {c : Char}

theorem rowsAfter_append : rowsAfter buf (ns ++ ns') = rowsAfter (rowsAfter buf ns) ns' := List.foldl_append

theorem lines_append : lines buf (ns ++ ns') = lines buf ns ++ lines (rowsAfter buf ns) ns' := by
  induction ns generalizing buf with
  | nil => rfl
  | cons n ns ih =>
      show _ :: lines _ (ns ++ ns') = _ :: (lines _ ns ++ _)
      rw [ih, ← rowsAfter_append]
      rfl

/-- Nodes do not touch the rows above them. -/
theorem rowsAfter_update (buf : Rows) (row : List Char) (h : ∀ n ∈ ns, n.depth ≠ d) :
    rowsAfter (Function.update buf d row) ns = Function.update (rowsAfter buf ns) d row ∧
      lines (Function.update buf d row) ns = lines buf ns ∧ rowsAfter buf ns d = buf d := by
  induction ns generalizing buf with
  | nil => exact ⟨rfl, rfl, rfl⟩
  | cons n ns ih =>
      obtain ⟨hn, hns⟩ := List.forall_mem_cons.mp h
      obtain ⟨hrows, hlines, hkept⟩ := ih (rowsAfter buf [n]) hns
      have hstep : rowsAfter (Function.update buf d row) [n] = Function.update (rowsAfter buf [n]) d row := by
        show Function.update _ _ _ = Function.update (Function.update _ _ _) _ _
        rw [Function.update_of_ne hn, Function.update_comm hn]
      refine ⟨?_, ?_, ?_⟩
      · show rowsAfter (rowsAfter _ [n]) ns = _
        rw [hstep, hrows]
        rfl
      · show _ :: lines (rowsAfter _ [n]) ns = _
        rw [hstep, hlines, Function.update_of_ne hn]
        rfl
      · exact hkept.trans (Function.update_of_ne (Ne.symm hn) _ _)

theorem le_depth_nodes (entry : Entry) : ∀ depth, ∀ n ∈ entry.nodes depth, depth ≤ n.depth := by
  induction entry with
  | node shift slots ih =>
      intro depth n hn
      rcases List.mem_append.mp hn with hn | hn
      · obtain ⟨i, -, hi⟩ := List.mem_flatMap.mp hn
        exact Nat.le_of_succ_le (ih i (depth + 1) n hi)
      · rw [List.mem_singleton.mp hn]
  | null => exact fun _ _ hn => nomatch hn
  | value => exact fun _ _ hn => nomatch hn
  | zero => exact fun _ _ hn => nomatch hn
  | other bits => exact fun _ _ hn => nomatch hn

/-! ## The loop

While it goes over the slots, the row of its depth holds the letters so far and the old letters
behind them. The nodes below are deeper and use other rows. -/

theorem put_append : put (pre ++ rest) pre.length c = pre ++ overlay [c] rest := by
  rw [put, List.take_left, List.drop_append]
  simp [overlay]

/-- What the loop has done: `pre` is written in the row, and `rest` stands behind it. -/
structure Drawing.Wrote (s : Drawing) (depth : Nat) (pre rest : List Char) : Prop where
  offset : s.offset = pre.length
  row : s.buf depth = pre ++ rest

/-- The variables after an entry with these letters and nodes. -/
def Drawing.after (s : Drawing) (depth : Nat) (pre rest : List Char) (ls : List Char) (ns : List Drawn) : Drawing where
  offset := s.offset + ls.length
  count := s.count + ns.length
  log := s.log ++ lines s.buf ns
  buf := Function.update (rowsAfter s.buf ns) depth (pre ++ overlay ls rest)

variable {s : Drawing} {ls : List Char}

theorem Drawing.Wrote.after (h : s.Wrote depth pre rest) :
    (s.after depth pre rest ls ns).Wrote depth (pre ++ ls) (rest.drop ls.length) where
  offset := by rw [Drawing.after, h.offset, List.length_append]
  row := by
    show Function.update _ _ _ _ = _
    rw [Function.update_self, overlay, List.append_assoc]

theorem Drawing.Wrote.put (h : s.Wrote depth pre rest) : s.put depth c = s.after depth pre rest [c] [] := by
  rw [Drawing.put, Drawing.after, h.row, h.offset, put_append]
  simp [lines, rowsAfter]

theorem Drawing.Wrote.skip (h : s.Wrote depth pre rest) : s.after depth pre rest [] [] = s := by
  have hrow : Function.update s.buf depth (pre ++ overlay [] rest) = s.buf := by
    rw [overlay, List.nil_append, List.length_nil, List.drop_zero, ← h.row, Function.update_eq_self]
  simp [Drawing.after, lines, rowsAfter, hrow]

theorem Drawing.after_after {ls' : List Char} (hdeep : ∀ n ∈ ns', n.depth ≠ depth) :
    (s.after depth pre rest ls ns).after depth (pre ++ ls) (rest.drop ls.length) ls' ns' =
      s.after depth pre rest (ls ++ ls') (ns ++ ns') := by
  obtain ⟨hrows, hlines, -⟩ := rowsAfter_update (rowsAfter s.buf ns) (pre ++ overlay ls rest) hdeep
  have hover : pre ++ ls ++ overlay ls' (rest.drop ls.length) = pre ++ overlay (ls ++ ls') rest := by
    simp only [overlay, List.append_assoc, List.drop_drop, List.length_append]
  simp only [Drawing.after, hrows, hlines, hover, lines_append, rowsAfter_append, List.length_append, Nat.add_assoc,
    List.append_assoc, Function.update_idem]

/-- What `examine_node()` is to do with an entry. -/
def Examines (examine : Rows → Option (Nat × List Drawn × Rows)) (ns : List Drawn) : Prop :=
  ∀ buf, examine buf = some (ns.length, lines buf ns, rowsAfter buf ns)

/-- **One entry**: its letter is written, and its nodes are drawn. -/
theorem examineSlot_eq {examine : Rows → Option (Nat × List Drawn × Rows)} (h : s.Wrote depth pre rest)
    (hexamine : Examines examine (entry.nodes (depth + 1))) :
    examineSlot depth entry examine s =
      some (s.after depth pre rest entry.letter.toList (entry.nodes (depth + 1))) := by
  cases entry with
  | null => exact congrArg some h.put
  | value => exact congrArg some h.put
  | node shift slots =>
      have hdeep : ∀ n ∈ (Entry.node shift slots).nodes (depth + 1), n.depth ≠ depth := by
        intro n hn
        exact Nat.ne_of_gt (le_depth_nodes _ _ n hn)
      obtain ⟨hrows, hlines, -⟩ := rowsAfter_update s.buf (pre ++ overlay ['N'] rest) hdeep
      show Option.map _ (examine _) = _
      rw [hexamine, h.put]
      simp only [Drawing.after, rowsAfter, lines, List.foldl_nil, List.append_nil, List.length_nil,
        Nat.add_zero, Option.map_some] at hrows hlines ⊢
      rw [hrows, hlines]
      rfl
  | zero => exact congrArg some h.skip.symm
  | other bits => exact congrArg some h.skip.symm

/-- **The loop over some slots.** -/
theorem foldlM_examineSlot {examine : Fin 64 → Rows → Option (Nat × List Drawn × Rows)} {is : List (Fin 64)}
    (h : s.Wrote depth pre rest) (hexamine : ∀ i ∈ is, Examines (examine i) ((slots i).nodes (depth + 1))) :
    is.foldlM (fun s i => examineSlot depth (slots i) (examine i) s) s =
      some (s.after depth pre rest (is.filterMap fun i => (slots i).letter)
        (is.flatMap fun i => (slots i).nodes (depth + 1))) := by
  induction is generalizing s pre rest with
  | nil => exact congrArg some h.skip.symm
  | cons i is ih =>
      obtain ⟨hi, his⟩ := List.forall_mem_cons.mp hexamine
      rw [List.foldlM_cons, examineSlot_eq h hi, Option.bind_eq_bind, Option.bind_some, ih h.after his]
      have hdeep : ∀ n ∈ is.flatMap fun i => (slots i).nodes (depth + 1), n.depth ≠ depth := by
        intro n hn
        obtain ⟨j, -, hj⟩ := List.mem_flatMap.mp hn
        exact Nat.ne_of_gt (le_depth_nodes _ _ n hj)
      have hletters : (i :: is).filterMap (fun i => (slots i).letter) =
          (slots i).letter.toList ++ is.filterMap fun i => (slots i).letter := by
        rw [List.filterMap_cons]
        cases (slots i).letter <;> rfl
      rw [Drawing.after_after hdeep, hletters, List.flatMap_cons]

/-- Where a slot cannot be examined, the loop fails. -/
theorem foldlM_examineSlot_none {examine : Fin 64 → Rows → Option (Nat × List Drawn × Rows)} {is : List (Fin 64)}
    {i : Fin 64} (hi : i ∈ is) (hnode : (slots i).letter = some 'N') (hnone : ∀ buf, examine i buf = none) :
    is.foldlM (fun s i => examineSlot depth (slots i) (examine i) s) s = none := by
  induction is generalizing s with
  | nil => cases hi
  | cons j is ih =>
      rw [List.foldlM_cons, Option.bind_eq_bind]
      rcases List.mem_cons.mp hi with rfl | hi
      · have hslot : examineSlot depth (slots i) (examine i) s = none := by
          cases hentry : slots i with
          | node shift slots' =>
              show Option.map _ (examine i _) = none
              rw [hnone]
              rfl
          | null => simp [hentry, Entry.letter] at hnode
          | value => simp [hentry, Entry.letter] at hnode
          | zero => simp [hentry, Entry.letter] at hnode
          | other bits => simp [hentry, Entry.letter] at hnode
        rw [hslot, Option.bind_none]
      · cases examineSlot depth (slots j) (examine j) s with
        | none => rfl
        | some s' => exact ih hi

/-! ## The whole tree

The induction is on the tree, with the depth as a parameter. Where a tree is too deep
`examine_node()` fails, and with it every call above. -/

/-- **`examine_node()` draws its nodes**, where the rows reach. -/
theorem examineNode_eq (entry : Entry) :
    ∀ depth, entry.Fits (maxDepth - depth) → Examines (examineNode entry depth) (entry.nodes depth) := by
  induction entry with
  | null => exact fun _ _ _ => rfl
  | value => exact fun _ _ _ => rfl
  | zero => exact fun _ _ _ => rfl
  | other bits => exact fun _ _ _ => rfl
  | node shift slots ih =>
      intro depth hfits buf
      have hdepth : depth < maxDepth := by
        by_contra h
        rw [Nat.sub_eq_zero_of_le (Nat.le_of_not_lt h)] at hfits
        exact hfits
      have hslots : ∀ i ∈ List.finRange 64,
          Examines (examineNode (slots i) (depth + 1)) ((slots i).nodes (depth + 1)) := by
        intro i _
        refine ih i (depth + 1) ?_
        rw [show maxDepth - depth = maxDepth - (depth + 1) + 1 by omega] at hfits
        exact hfits i
      have hwrote : Drawing.Wrote ⟨0, 0, [], buf⟩ depth [] (buf depth) := ⟨rfl, rfl⟩
      rw [examineNode, if_pos hdepth, foldlM_examineSlot hwrote hslots, Option.map_some, Entry.nodes,
        List.length_append, lines_append, rowsAfter_append]
      have hdeep : ∀ n ∈ (List.finRange 64).flatMap fun i => (slots i).nodes (depth + 1), n.depth ≠ depth := by
        intro n hn
        obtain ⟨j, -, hj⟩ := List.mem_flatMap.mp hn
        exact Nat.ne_of_gt (le_depth_nodes _ _ n hj)
      have hkept := (rowsAfter_update buf (buf depth) hdeep).2.2
      simp only [Drawing.after, Nat.zero_add, List.nil_append, Function.update_self, lines, rowsAfter, List.foldl_cons,
        List.foldl_nil, List.length_singleton] at hkept ⊢
      rw [hkept]
      rfl

theorem Entry.letter_of_not_fits (h : ¬entry.Fits n) : entry.letter = some 'N' := by
  cases entry with
  | node shift slots => rfl
  | null => exact absurd trivial h
  | value => exact absurd trivial h
  | zero => exact absurd trivial h
  | other bits => exact absurd trivial h

/-- Otherwise it writes behind the rows. -/
theorem examineNode_none (entry : Entry) :
    ∀ depth, ¬entry.Fits (maxDepth - depth) → ∀ buf, examineNode entry depth buf = none := by
  induction entry with
  | null => exact fun _ h => absurd trivial h
  | value => exact fun _ h => absurd trivial h
  | zero => exact fun _ h => absurd trivial h
  | other bits => exact fun _ h => absurd trivial h
  | node shift slots ih =>
      intro depth hfits buf
      rw [examineNode]
      split
      · next hdepth =>
        rw [show maxDepth - depth = maxDepth - (depth + 1) + 1 by omega] at hfits
        obtain ⟨i, hi⟩ := not_forall.mp hfits
        rw [foldlM_examineSlot_none (List.mem_finRange i) (Entry.letter_of_not_fits hi) (ih i (depth + 1) hi),
          Option.map_none]
      · rfl

/-! ## Whose letters a line shows -/

/-- There is nothing in the tree that no letter is for. -/
def Entry.Plain : Entry → Prop
  | .node _ slots => ∀ i, (slots i).Plain
  | .null | .value => True
  | .zero | .other _ => False

theorem Entry.Plain.letter_isSome (h : entry.Plain) : entry.letter.isSome := by
  cases entry with
  | node shift slots => rfl
  | null => rfl
  | value => rfl
  | zero => exact h.elim
  | other bits => exact h.elim

theorem length_letters (h : ∀ i, (slots i).Plain) : (letters slots).length = 64 := by
  have hmap : letters slots = (List.finRange 64).map fun i => ((slots i).letter).getD '.' := by
    rw [letters, ← List.filterMap_eq_map]
    refine List.filterMap_congr fun i _ => ?_
    obtain ⟨c, hc⟩ := Option.isSome_iff_exists.mp (h i).letter_isSome
    show (slots i).letter = some ((slots i).letter.getD '.')
    rw [hc, Option.getD_some]
  rw [hmap, List.length_map, List.length_finRange]

theorem length_row (entry : Entry) : ∀ depth, entry.Plain → ∀ n ∈ entry.nodes depth, n.row.length = 64 := by
  induction entry with
  | null => exact fun _ _ _ hn => nomatch hn
  | value => exact fun _ _ _ hn => nomatch hn
  | zero => exact fun _ _ _ hn => nomatch hn
  | other bits => exact fun _ _ _ hn => nomatch hn
  | node shift slots ih =>
      intro depth h n hn
      rcases List.mem_append.mp hn with hn | hn
      · obtain ⟨i, -, hi⟩ := List.mem_flatMap.mp hn
        exact ih i (depth + 1) (h i) n hi
      · rw [List.mem_singleton.mp hn]
        exact length_letters h

theorem overlay_eq_iff : overlay ls row = ls ↔ row.length ≤ ls.length := by
  rw [overlay, List.append_right_eq_self, List.drop_eq_nil_iff]

/-- **A line shows more than its node** exactly if a node of the same depth with more letters was drawn before. -/
theorem lines_eq_iff : lines buf ns = ns ↔ (∀ n ∈ ns, (buf n.depth).length ≤ n.row.length) ∧
    ns.Pairwise fun m n => m.depth = n.depth → m.row.length ≤ n.row.length := by
  induction ns generalizing buf with
  | nil => simp [lines]
  | cons n ns ih =>
      have hhead : ({ n with row := overlay n.row (buf n.depth) } : Drawn) = n ↔
          (buf n.depth).length ≤ n.row.length := by
        rw [← overlay_eq_iff]
        constructor
        · exact fun h => congrArg Drawn.row h
        · intro h
          rw [h]
      rw [lines, List.cons.injEq, hhead, ih, List.forall_mem_cons, List.pairwise_cons]
      constructor
      · rintro ⟨hn, hrows, hpairs⟩
        have hrow : overlay n.row (buf n.depth) = n.row := overlay_eq_iff.mpr hn
        have hafter : ∀ m ∈ ns, n.depth = m.depth → n.row.length ≤ m.row.length := by
          intro m hm hdepth
          have := hrows m hm
          rwa [rowsAfter, List.foldl_cons, List.foldl_nil, hrow, ← hdepth, Function.update_self] at this
        refine ⟨⟨hn, fun m hm => ?_⟩, hafter, hpairs⟩
        by_cases hdepth : n.depth = m.depth
        · rw [← hdepth]
          exact Nat.le_trans hn (hafter m hm hdepth)
        · have := hrows m hm
          rwa [rowsAfter, List.foldl_cons, List.foldl_nil, Function.update_of_ne (Ne.symm hdepth)] at this
      · rintro ⟨⟨hn, hrows⟩, hafter, hpairs⟩
        refine ⟨hn, fun m hm => ?_, hpairs⟩
        rw [rowsAfter, List.foldl_cons, List.foldl_nil, overlay_eq_iff.mpr hn]
        by_cases hdepth : n.depth = m.depth
        · rw [← hdepth, Function.update_self]
          exact hafter m hm hdepth
        · rw [Function.update_of_ne (Ne.symm hdepth)]
          exact hrows m hm

/-- **Drawing an xarray**: if there are at most `MAX_DEPTH` nodes on the way to any entry, all nodes are drawn, children
before parents, and are counted, and otherwise `buf` is overrun. A line shows its node and nothing else exactly if no
node of the same depth before it has more letters, as in a tree of values. -/
theorem examine_xa_draws (shift : Nat) (slots : Fin 64 → Entry) :
    let head := Entry.node shift slots
    let ns := head.nodes 0
    (head.Fits maxDepth → examineXa head (fun _ => []) = some (.nodes (lines (fun _ => []) ns) ns.length)) ∧
    (¬head.Fits maxDepth → examineXa head (fun _ => []) = none) ∧
    (lines (fun _ => []) ns = ns ↔ ns.Pairwise fun m n => m.depth = n.depth → m.row.length ≤ n.row.length) ∧
    (head.Plain → lines (fun _ => []) ns = ns) := by
  intro head ns
  have hlines : lines (fun _ => []) ns = ns ↔
      ns.Pairwise fun m n => m.depth = n.depth → m.row.length ≤ n.row.length := by
    rw [lines_eq_iff]
    simp
  refine ⟨fun h => ?_, fun h => ?_, hlines, fun h => ?_⟩
  · rw [examineXa, examineNode_eq head 0 h]
    rfl
  · rw [examineXa, examineNode_none head 0 h]
    rfl
  · refine hlines.mpr (List.pairwise_of_forall_mem_list fun m hm n hn _ => ?_)
    rw [length_row head 0 h m hm, length_row head 0 h n hn]

end MmExper.Kernel.Xarray
