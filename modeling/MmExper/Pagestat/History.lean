import MmExper.Pagestat.Diff

/-!
# Printing after other listings

The variables that a listing is abbreviated with are the process's. `pagestat_print` resets them when it
is done, `pagestat_print_diff` leaves the last page it printed in them, and the next listing counts on.
-/

namespace MmExper.Pagestat

open Lib

variable {env : Env} {ps : PageStat} {seen : Seen} {addr index : Word} {n : Nat} {a b : PageStat}
  {seenFirst : Bool} {m : Nat}

inductive Call where
  | print (ps : Option PageStat)
  | printDiff (psA psB : Option PageStat)

def Call.exec (env : Env) (seen : Seen) : Call → Seen
  | .print ps => (pagestatPrint env ps seen).2.2
  | .printDiff psA psB => (pagestatPrintDiff env psA psB seen).2.2

def seenAfter (env : Env) (history : List Call) : Seen := history.foldl (Call.exec env) Seen.init

/-- The call prints a listing, which resets the variables. -/
def Call.lists : Call → Bool
  | .print ps => ps.any fun ps => !ps.ignored
  | .printDiff none psB => psB.any fun b => !b.ignored
  | .printDiff (some a) none => !a.ignored
  | .printDiff (some a) (some b) => decide (a.vmaStart ≠ b.vmaStart ∨ a.vmaEnd ≠ b.vmaEnd) && !a.ignored

/-- The pages that the call prints as changed. -/
def Call.changed (env : Env) : Call → Nat
  | .printDiff (some a) (some b) =>
    if a.vmaStart ≠ b.vmaStart ∨ a.vmaEnd ≠ b.vmaEnd then 0
    else (List.range (countVirtPages env.pageSize a).toNat).countP fun i => pageDiffers env a b (BitVec.ofNat 64 i)
  | _ => 0

/-- The pages that diffs have printed since the last listing. -/
def changedSince (env : Env) (history : List Call) : Nat :=
  history.foldl (fun n call => if call.lists then 0 else n + call.changed env) 0

/-! ## Between calls

Since the last listing nothing has been seen but the pages of diffs, and each of these twice.
-/

structure Since (m : Nat) (seen : Seen) : Prop where
  map : seen.lastSeenMap = invalidValue ↔ m = 0
  count : seen.seenMapCount = BitVec.ofNat 64 (2 * m)

theorem Since.init : Since 0 Seen.init := ⟨iff_of_true rfl rfl, rfl⟩

theorem Since.idle (h : Since m seen) (hmap : seen.lastSeenMap = invalidValue) : seen.seenMapCount = 0#64 := by
  rw [h.count, h.map.mp hmap]

theorem Since.even (h : Since m seen) : seen.seenMapCount.toNat % 2 = 0 := by
  rw [h.count, BitVec.toNat_ofNat]
  omega

/-- A listing resets the variables. -/
theorem printPages_reset : (printPages env ps addr index n seen).2.lastSeenMap = invalidValue ∧
    (printPages env ps addr index n seen).2.seenMapCount = 0#64 := by
  induction n generalizing addr index seen with
  | zero => exact ⟨rfl, rfl⟩
  | succ n ih => exact ih

theorem Since.print (h : Since m seen) (ps : Option PageStat) :
    Since (if ps.any fun ps => !ps.ignored then 0 else m) (pagestatPrint env ps seen).2.2 := by
  cases ps with
  | none => exact h
  | some ps =>
      rw [Option.any_some]
      unfold pagestatPrint
      simp only []
      cases ps.ignored with
      | true => exact h
      | false => exact ⟨iff_of_true printPages_reset.1 rfl, printPages_reset.2⟩

/-- A page that differs is seen in both snapshots. -/
theorem Since.see {addr' val val' : Word} (h : Since m seen) :
    Since (m + 1) ((seen.see addr index val).see addr' index val') := by
  refine ⟨iff_of_false Seen.see_map_ne (Nat.succ_ne_zero m), ?_⟩
  show seen.seenMapCount + 1#64 + 1#64 = BitVec.ofNat 64 (2 * m + 1 + 1)
  rw [h.count, BitVec.ofNat_add, BitVec.ofNat_add]

theorem Since.printDiffPages (h : Since m seen) :
    Since (m + (List.range n).countP fun i => pageDiffers env a b (index + BitVec.ofNat 64 i))
      (printDiffPages env a b addr index n seenFirst seen).2.2 := by
  induction n generalizing addr index seenFirst seen m with
  | zero => exact h
  | succ n ih =>
      have hfirst : index + BitVec.ofNat 64 0 = index := BitVec.add_zero index
      rw [List.range_succ_eq_map, List.countP_cons, List.countP_map, hfirst]
      simp only [Function.comp_def, Nat.succ_eq_add_one, pageDiffers_shift]
      by_cases hp : pageDiffers env a b index = true
      · rw [printDiffPages_differs hp, if_pos hp, Nat.add_comm _ 1, ← Nat.add_assoc]
        exact ih h.see
      · rw [printDiffPages_same hp, if_neg hp, Nat.add_zero]
        exact ih h

theorem Since.exec (h : Since m seen) (call : Call) :
    Since (if call.lists then 0 else m + call.changed env) (call.exec env seen) := by
  match call with
  | .print ps => exact h.print ps
  | .printDiff none none => exact h
  | .printDiff none (some b) => exact h.print (some b)
  | .printDiff (some a) none => exact h.print (some a)
  | .printDiff (some a) (some b) =>
      unfold Call.exec pagestatPrintDiff Call.lists Call.changed
      simp only []
      by_cases hrange : a.vmaStart ≠ b.vmaStart ∨ a.vmaEnd ≠ b.vmaEnd
      · -- Two listings, or none if the first one is left out.
        rw [if_pos hrange, if_pos hrange, decide_eq_true hrange, Bool.true_and]
        cases hig : a.ignored with
        | true =>
            simp only [pagestatPrint, hig]
            exact h
        | false =>
            have hfirst : Since (if !a.ignored then 0 else m) (pagestatPrint env (some a) seen).2.2 := h.print (some a)
            rw [hig] at hfirst
            have hsecond : Since (if !b.ignored then 0 else 0)
                (pagestatPrint env (some b) (pagestatPrint env (some a) seen).2.2).2.2 := hfirst.print (some b)
            rw [ite_self] at hsecond
            simp only [pagestatPrint, hig] at hsecond ⊢
            exact hsecond
      · rw [if_neg hrange, if_neg hrange, decide_eq_false hrange]
        have hpages : Since (m + (List.range (countVirtPages env.pageSize a).toNat).countP fun i =>
            pageDiffers env a b (0#64 + BitVec.ofNat 64 i)) (Pagestat.printDiffPages env a b a.vmaStart 0#64
              (countVirtPages env.pageSize a).toNat false seen).2.2 := h.printDiffPages
        simp only [BitVec.zero_add] at hpages
        unfold printDiffSame
        simp only [Bool.false_and, Bool.false_eq_true, if_false]
        split
        · exact hpages
        · exact hpages

theorem Since.seenAfter (history : List Call) : Since (changedSince env history) (seenAfter env history) := by
  suffices hfold : ∀ m seen, Since m seen →
      Since (history.foldl (fun n call => if call.lists then 0 else n + call.changed env) m)
        (history.foldl (Call.exec env) seen) from hfold _ _ Since.init
  induction history with
  | nil => exact fun _ _ h => h
  | cons call history ih => exact fun m seen h => ih _ _ (h.exec call)

/-! ## What stale variables change

A count that is left over is printed in front of the first page, or the first page is counted to it.
Either can be seen in what is printed. -/

def Seen.counted (seen : Seen) (count : Word) : Seen := { seen with seenMapCount := count }

/-- A listing begins with what was counted before it and `k` pages more, whatever the count is. -/
theorem printPages_counted (env : Env) (ps : PageStat) (addr index : Word) (n : Nat) (seen : Seen) :
    ∃ (last : Seen) (k : Nat) (rest : List Line), k ≤ n ∧
    (k = 0 → last = seen) ∧ ∀ count, (printPages env ps addr index n (seen.counted count)).1 =
      printAbbrev env ps (last.counted (count + BitVec.ofNat 64 k)) ++ rest := by
  induction n generalizing addr index seen with
  | zero =>
      refine ⟨seen, 0, [], Nat.le_refl 0, fun _ => rfl, fun count => ?_⟩
      rw [BitVec.add_zero, List.append_nil]
      rfl
  | succ n ih =>
      cases hnew : seen.newVal (env.read ps.pagemaps index) with
      | true =>
          -- The page ends the run.
          refine ⟨seen, 0, doPrintMapping env addr ps index (env.read ps.pagemaps index) ::
            (printPages env ps (addr + env.pageSize) (index + 1#64) n
              ((seen.see addr index (env.read ps.pagemaps index)).counted 1#64)).1,
            Nat.zero_le _, fun _ => rfl, fun count => ?_⟩
          have hnew' : (seen.counted count).newVal (env.read ps.pagemaps index) = true := hnew
          rw [printPages, printMapping_new hnew', BitVec.add_zero]
          exact List.append_assoc _ _ _
      | false =>
          obtain ⟨last, k, rest, hk, -, hrest⟩ :=
            ih (addr + env.pageSize) (index + 1#64) (seen.see addr index (env.read ps.pagemaps index))
          refine ⟨last, k + 1, rest, Nat.succ_le_succ hk, fun h => absurd h (Nat.succ_ne_zero k),
            fun count => ?_⟩
          have hnew' : (seen.counted count).newVal (env.read ps.pagemaps index) = false := hnew
          have hcount : count + BitVec.ofNat 64 (k + 1) = count + 1#64 + BitVec.ofNat 64 k := by
            rw [BitVec.add_assoc, ← BitVec.ofNat_add, Nat.add_comm]
          rw [printPages, printMapping_old hnew', hcount]
          exact hrest (count + 1#64)

/-- Nothing is left to print exactly if nothing is counted. -/
theorem Since.printAbbrev_eq_nil (h : Since m seen) :
    printAbbrev env ps seen = [] ↔ seen.seenMapCount = 0#64 := by
  by_cases hmap : seen.lastSeenMap = invalidValue
  · rw [printAbbrev_invalid hmap, h.idle hmap]
    simp
  · have heven := h.even
    rw [Pagestat.printAbbrev_eq_nil hmap, ← BitVec.toNat_inj, BitVec.toNat_ofNat]
    omega

theorem printAbbrev_counted_invalid {count : Word} (h : seen.lastSeenMap = invalidValue) :
    printAbbrev env ps (seen.counted count) = [] := printAbbrev_invalid h

theorem printAbbrev_counted_eq_nil {count : Word} (h : seen.lastSeenMap ≠ invalidValue) :
    printAbbrev env ps (seen.counted count) = [] ↔ count.toNat < 2 := printAbbrev_eq_nil h

theorem printAbbrev_counted_repetitions {count : Word} (h : seen.lastSeenMap ≠ invalidValue)
    (hcount : 2 < count.toNat) :
    printAbbrev env ps (seen.counted count) = [.repetitions seen.lastSeenAddr (count - 1#64)] :=
  printAbbrev_repetitions h hcount

/-- A listing that counts its first page to an earlier one does not print what it should. -/
theorem printPages_stale {count val flags pages : Word} (heven : count.toNat % 2 = 0) (hn : n + 1 < 2 ^ 64) :
    text env (printPages env ps addr index n (seen.counted (count + 1#64))).1 ≠
      text env (.mapping seen.lastSeenAddr val flags pages ::
        (printPages env ps addr index n (seen.counted 1#64)).1) := by
  intro h
  obtain ⟨last, k, rest, hk, hlast, hrest⟩ := printPages_counted env ps addr index n seen
  rw [hrest, hrest, ← List.singleton_append, ← List.append_assoc, text_append, text_append] at h
  have h := List.append_cancel_right h
  -- One line against the line of the page and what is counted after it: nothing is counted after it.
  have hlines := congrArg (List.count '\n') h
  rw [count_text, count_text, List.length_append, List.length_singleton] at hlines
  have hle : (printAbbrev env ps (last.counted (count + 1#64 + BitVec.ofNat 64 k))).length ≤ 1 :=
    length_printAbbrev
  have hnil : printAbbrev env ps (last.counted (1#64 + BitVec.ofNat 64 k)) = [] :=
    List.eq_nil_of_length_eq_zero (by omega)
  have hcons : printAbbrev env ps (last.counted (count + 1#64 + BitVec.ofNat 64 k)) ≠ [] := by
    intro hnil'
    rw [hnil', hnil] at hlines
    cases hlines
  have hmap : last.lastSeenMap ≠ invalidValue := fun hmap => hcons (printAbbrev_counted_invalid hmap)
  have hk₀ : k = 0 := by
    have hfew := (printAbbrev_counted_eq_nil hmap).mp hnil
    rw [BitVec.toNat_add, BitVec.toNat_ofNat, BitVec.toNat_ofNat] at hfew
    omega
  obtain rfl := hlast hk₀
  subst hk₀
  -- The count is odd and not one, so a number of repetitions is printed instead of the page.
  have hmany : 2 < (count + 1#64 + BitVec.ofNat 64 0).toNat := by
    have hfew := mt (printAbbrev_counted_eq_nil hmap).mpr hcons
    have hodd : (count + 1#64 + BitVec.ofNat 64 0).toNat % 2 = 1 := by
      rw [BitVec.add_zero, BitVec.toNat_add, BitVec.toNat_ofNat]
      omega
    omega
  rw [hnil, List.append_nil, printAbbrev_counted_repetitions hmap hmany] at h
  exact text_mapping_ne h.symm

/-! ## Independence

Fewer than `2 ^ 63` pages do not wrap the count, and then the condition is one on the calls. -/

/-- The variables do not matter to the listing. A count of zero means that nothing has been seen, unless it has wrapped
around: then the first page may still be like the last one. -/
def StartsAfresh (env : Env) (ps : PageStat) (seen : Seen) : Prop :=
  seen.seenMapCount = 0#64 ∧
    (countVirtPages env.pageSize ps = 0#64 ∨ seen.newVal (env.read ps.pagemaps 0#64) = true)

theorem Seen.init_newVal {val : Word} : Seen.init.newVal val = true := by
  have hmap : (Seen.init.see 0#64 0#64 val).lastSeenMap ≠ invalidValue := Seen.see_map_ne
  exact decide_eq_true (Or.inl hmap)

theorem printAbbrev_init : printAbbrev env ps Seen.init = [] := printAbbrev_invalid rfl

/-- What a listing prints is what it would print as the first one exactly if it starts afresh. -/
theorem text_printPages_iff (h : Since m seen) :
    text env (printPages env ps ps.vmaStart 0#64 (countVirtPages env.pageSize ps).toNat seen).1 =
      text env (printPages env ps ps.vmaStart 0#64 (countVirtPages env.pageSize ps).toNat Seen.init).1 ↔
    StartsAfresh env ps seen := by
  by_cases hpages : countVirtPages env.pageSize ps = 0#64
  · -- Only what is counted is left to print.
    rw [hpages]
    show text env (printAbbrev env ps seen) = text env (printAbbrev env ps Seen.init) ↔ _
    rw [printAbbrev_init, text_nil, text_eq_nil, h.printAbbrev_eq_nil]
    simp [StartsAfresh, hpages]
  · obtain ⟨n, hn⟩ : ∃ n, (countVirtPages env.pageSize ps).toNat = n + 1 :=
      Nat.exists_eq_succ_of_ne_zero fun hzero => hpages (BitVec.eq_of_toNat_eq hzero)
    have hbound := (countVirtPages env.pageSize ps).isLt
    rw [hn] at hbound
    have hfirst : ∀ val, Seen.see { Seen.init with seenMapCount := 0#64 } ps.vmaStart 0#64 val =
        (seen.see ps.vmaStart 0#64 val).counted 1#64 := fun _ => rfl
    rw [hn, printPages, printPages, printMapping_new Seen.init_newVal, printAbbrev_init, hfirst]
    cases hnew : seen.newVal (env.read ps.pagemaps 0#64) with
    | true =>
        have hsame : Seen.see { seen with seenMapCount := 0#64 } ps.vmaStart 0#64 (env.read ps.pagemaps 0#64) =
          (seen.see ps.vmaStart 0#64 (env.read ps.pagemaps 0#64)).counted 1#64 := rfl
        rw [printMapping_new hnew, hsame]
        simp only [List.append_assoc, List.nil_append, text_append, List.append_left_eq_self, text_eq_nil,
          h.printAbbrev_eq_nil]
        simp [StartsAfresh, hnew]
    | false =>
        have hnot : ¬StartsAfresh env ps seen := by
          rintro ⟨-, hzero | hnew'⟩
          · exact hpages hzero
          · rw [hnew] at hnew'
            cases hnew'
        have hstale : text env (printPages env ps (ps.vmaStart + env.pageSize) (0#64 + 1#64) n
              ((seen.see ps.vmaStart 0#64 (env.read ps.pagemaps 0#64)).counted (seen.seenMapCount + 1#64))).1 ≠
            text env (doPrintMapping env ps.vmaStart ps 0#64 (env.read ps.pagemaps 0#64) ::
              (printPages env ps (ps.vmaStart + env.pageSize) (0#64 + 1#64) n
                ((seen.see ps.vmaStart 0#64 (env.read ps.pagemaps 0#64)).counted 1#64)).1) :=
          printPages_stale h.even hbound
        rw [printMapping_old hnew]
        exact iff_of_false hstale hnot

/-- In terms of the calls: no diff has printed a page since the last listing. -/
theorem Since.startsAfresh_iff (h : Since m seen) (hm : m < 2 ^ 63) : StartsAfresh env ps seen ↔ m = 0 := by
  constructor
  · rintro ⟨hcount, -⟩
    rw [h.count, ← BitVec.toNat_inj, BitVec.toNat_ofNat, BitVec.toNat_ofNat] at hcount
    omega
  · intro hzero
    have hmap : seen.lastSeenMap = invalidValue := h.map.mpr hzero
    have hnew : (seen.see 0#64 0#64 (env.read ps.pagemaps 0#64)).lastSeenMap ≠ seen.lastSeenMap := by
      rw [hmap]
      exact Seen.see_map_ne
    exact ⟨h.idle hmap, .inr (decide_eq_true (.inl hnew))⟩

/-- **A listing does not depend on the history exactly if it starts afresh**: nothing is printed at all, or no page is
counted yet and the first page is not like the last one seen. In terms of the calls, as long as the count does not wrap
around, no diff has printed a page since the last listing. -/
theorem print_history_iff (env : Env) (history : List Call) (ps : Option PageStat) :
    ((pagestatPrint env ps (seenAfter env history)).2.1 = (pagestatPrint env ps Seen.init).2.1 ↔
      ∀ qs ∈ ps, qs.ignored = true ∨ StartsAfresh env qs (seenAfter env history)) ∧
    (changedSince env history < 2 ^ 63 →
      ((pagestatPrint env ps (seenAfter env history)).2.1 = (pagestatPrint env ps Seen.init).2.1 ↔
        ∀ qs ∈ ps, qs.ignored = true ∨ changedSince env history = 0)) := by
  have hsince : Since (changedSince env history) (seenAfter env history) := Since.seenAfter history
  have hafresh : (pagestatPrint env ps (seenAfter env history)).2.1 = (pagestatPrint env ps Seen.init).2.1 ↔
      ∀ qs ∈ ps, qs.ignored = true ∨ StartsAfresh env qs (seenAfter env history) := by
    cases ps with
    | none => simp [pagestatPrint]
    | some ps =>
        simp only [Option.mem_some, forall_eq']
        unfold pagestatPrint
        by_cases hig : ps.ignored = true
        · simp [hig]
        · simpa [hig] using text_printPages_iff hsince
  refine ⟨hafresh, fun hfew => hafresh.trans ?_⟩
  simp only [hsince.startsAfresh_iff hfew]

/-- A diff prints a page, and a listing comes after it. -/
theorem print_history_iff_listed :
    (pagestatPrint Env.linux (some (onePage 0 0)) (seenAfter Env.linux
        [.printDiff (some (onePage 0 0)) (some (onePage 0 (1#64 <<< 55))), .print (some (onePage 0 0))])).2.1 =
      (pagestatPrint Env.linux (some (onePage 0 0)) Seen.init).2.1 :=
  ((print_history_iff Env.linux _ _).2 (by decide +kernel)).mpr fun _ _ => .inr (by decide +kernel)

/-- A diff prints a page that has become soft-dirty; the listing of the snapshot counts its only page to
the two of the diff, and has no line for it. -/
theorem print_after_diff :
    ∃ history ps,
      (pagestatPrint Env.linux (some ps) Seen.init).2.1 =
        printHeader ps ++ "0000000000001000: Ds                \n".toList ∧
      (pagestatPrint Env.linux (some ps) (seenAfter Env.linux history)).2.1 =
        printHeader ps ++ "0000000000001000: (2 more repetitions of above)\n".toList ∧
      (pagestatPrint Env.linux (some ps) (seenAfter Env.linux history)).2.1 ≠
        (pagestatPrint Env.linux (some ps) Seen.init).2.1 := by
  refine ⟨[.printDiff (some (onePage 0 0)) (some (onePage 0 (1#64 <<< 55)))], onePage 0 (1#64 <<< 55), ?_, ?_, ?_⟩
  · decide +kernel
  · decide +kernel
  · decide +kernel

end MmExper.Pagestat
