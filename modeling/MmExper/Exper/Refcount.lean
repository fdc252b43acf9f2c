import MmExper.Lib.CharDevice
import MmExper.Lib.Runs

/-!
# Asking for a reference count

`exper.c` answers at `/dev/refcount`: a client writes a page frame number, and a later read returns the
reference count that was computed for it. `get_refcount` of `read-pageflags.c` opens the device once to
write and once to read. The answer waits in a buffer that all clients of the module share.
-/

namespace MmExper.Exper

open Lib

abbrev Word := BitVec 64

/-- What `page_ref_count()` says about the page of a PFN, or nothing where `pfn_to_page()` is `NULL`. -/
abbrev Pages := Word → Option (BitVec 32)

/-! ## The module

There is one buffer for all clients, and a write that fails leaves it as it is. -/

def einval : Int := 22

structure Device where
  refcountBuf : List Char
  refcountBufSize : Nat
  deriving DecidableEq

def Device.init : Device := ⟨'0' :: List.replicate 254 '\x00', 2⟩

/-- `refcount_read_()`: the bytes read, and the position. -/
def refcountRead (dev : Device) (size off : Nat) : List Char × Nat :=
  simpleReadFromBuffer size off dev.refcountBuf dev.refcountBufSize

/-- `refcount_write_()`, where `pfn_buf` holds `pfnBuf` at first: what it returns, the position, and the
static variables. -/
def refcountWrite (pages : Pages) (pfnBuf : List Char) (dev : Device) (src : List Char) (off : Nat) :
    Int × Nat × Device :=
  let (count, pfnBuf, off) := simpleWriteToBuffer pfnBuf 254 off src
  if count = 0 then (-einval, off, dev)
  else
    match sscanfUll (cString (pfnBuf.set count '\x00')) with
    | none => (-einval, off, dev)
    | some pfn =>
      match pages pfn with
      | none => (-einval, off, dev)
      | some refcount =>
        let (buf, len) := snprintf dev.refcountBuf 255 (signedDecimal refcount)
        (src.length, src.length, ⟨buf, len + 1⟩)

/-! ## The clients

A client opens, writes, and reads through another file. `misled` is a count that was computed for
another client's page. -/

/-- Where a client is in `get_refcount()`. After its write, what the module computed for its PFN is kept
beside it. -/
inductive Client where
  | idle
  | opened (pfn : Word)
  | written (pfn : Word) (own : Option (BitVec 32))
  | closed (pfn : Word) (own : Option (BitVec 32))
  | reopened (pfn : Word) (own : Option (BitVec 32))
  /-- It has this answer. -/
  | read (pfn : Word) (own : Option (BitVec 32)) (ret : BitVec 32)
  /-- It met the end of the file. -/
  | exited
  deriving DecidableEq

structure State (ι : Type*) where
  dev : Device
  client : ι → Client
  /-- What the last write that succeeded computed. -/
  last : Option (BitVec 32)

def State.init {ι : Type*} : State ι := ⟨Device.init, fun _ => .idle, none⟩

/-- The client takes its next step. A write is answered from the pages as they are then. -/
inductive Event (ι : Type*) where
  | open (i : ι) (pfn : Word)
  | write (i : ι) (pages : Pages) (pfnBuf : List Char)
  | close (i : ι)
  | reopen (i : ι)
  | read (i : ι)
  | done (i : ι)

section

variable {ι : Type*} [DecidableEq ι]

def State.goes (s : State ι) (i : ι) (c : Client) : State ι :=
  { s with client := Function.update s.client i c }

/-- The text that `get_refcount()` writes. -/
def request (pfn : Word) : List Char := decimal pfn ++ ['\n']

def bufsiz : Nat := 4096

/-- One step of `get_refcount()` of one client. A file that is opened is at its start. -/
def step (s : State ι) : Event ι → Option (State ι)
  | .open i pfn =>
    match s.client i with
    | .idle => some (s.goes i (.opened pfn))
    | _ => none
  | .write i pages pfnBuf =>
    match s.client i with
    | .opened pfn =>
      -- That the write failed is not looked at.
      let (_, _, dev) := refcountWrite pages pfnBuf s.dev (request pfn) 0
      some { dev := dev
             client := Function.update s.client i (.written pfn (pages pfn))
             last := (pages pfn).or s.last }
    | _ => none
  | .close i =>
    match s.client i with
    | .written pfn own => some (s.goes i (.closed pfn own))
    | _ => none
  | .reopen i =>
    match s.client i with
    | .closed pfn own => some (s.goes i (.reopened pfn own))
    | _ => none
  | .read i =>
    match s.client i with
    | .reopened pfn own =>
      match fscanfD (refcountRead s.dev bufsiz 0).1 with
      | none => some (s.goes i .exited)
      | some ret => some (s.goes i (.read pfn own (ret.getD 0)))
    | _ => none
  | .done i =>
    match s.client i with
    | .read _ _ _ => some (s.goes i .idle)
    | _ => none

/-! ## What the module remembers

The buffer always holds the text of some count, the one that was computed last. So a read never
fails, and returns this count. -/

variable {s s' : State ι} {e : Event ι} {i : ι} {c : Client} {pfn : Word} {pages : Pages} {pfnBuf : List Char}
  {r : BitVec 32}

def Answers (dev : Device) (r : BitVec 32) : Prop :=
  ∃ buf, dev = ⟨(snprintf buf 255 (signedDecimal r)).1, (signedDecimal r).length + 1⟩

theorem answers_init : Answers Device.init 0#32 := ⟨List.replicate 255 '\x00', rfl⟩

/-- A client reads the count that the device answers with. -/
theorem Answers.read {dev : Device} (h : Answers dev r) :
    fscanfD (refcountRead dev bufsiz 0).1 = some (some r) := by
  obtain ⟨buf, rfl⟩ := h
  have hlen : (signedDecimal r).length ≤ 11 := length_signedDecimal
  have hbytes : refcountRead ⟨(snprintf buf 255 (signedDecimal r)).1, (signedDecimal r).length + 1⟩ bufsiz 0 =
      (signedDecimal r ++ ['\x00'], (signedDecimal r).length + 1) := by
    apply simpleReadFromBuffer_snprintf
    · omega
    · have : bufsiz = 4096 := rfl
      omega
  rw [hbytes]
  exact fscanfD_signedDecimal

/-- The handler reads a number and looks it up. -/
theorem refcountWrite_eq (pages : Pages) (pfnBuf : List Char) (dev : Device) (src : List Char) (off : Nat) :
    refcountWrite pages pfnBuf dev src off =
      match readNumber sscanfUll pfnBuf 254 off src with
      | (none, off) => (-einval, off, dev)
      | (some pfn, off) =>
        match pages pfn with
        | none => (-einval, off, dev)
        | some refcount =>
          let (buf, len) := snprintf dev.refcountBuf 255 (signedDecimal refcount)
          (src.length, src.length, ⟨buf, len + 1⟩) := by
  unfold refcountWrite readNumber
  by_cases hcount : (simpleWriteToBuffer pfnBuf 254 off src).1 = 0
  · simp only [if_pos hcount]
  · simp only [if_neg hcount]
    generalize sscanfUll _ = pfn
    cases pfn with
    | none => rfl
    | some pfn => rfl

/-- The module reads the PFN that the client wrote. -/
theorem refcountWrite_request {dev : Device} : (refcountWrite pages pfnBuf dev (request pfn) 0).2.2 =
    match pages pfn with
    | none => dev
    | some r => ⟨(snprintf dev.refcountBuf 255 (signedDecimal r)).1, (signedDecimal r).length + 1⟩ := by
  have hzero : '\x00' ∉ request pfn := by
    rw [request, List.mem_append, not_or]
    exact ⟨not_mem_zero_of_isDigit isDecimal_decimal.digits, by decide⟩
  have hne : request pfn ≠ [] := by simp [request]
  have hlen : (request pfn).length ≤ 254 := by
    have : (decimal pfn).length ≤ 20 := length_decimal
    rw [request, List.length_append, List.length_singleton]
    omega
  have hscan : sscanfUll (request pfn) = some pfn := sscanfUll_decimal
  rw [refcountWrite_eq, readNumber_start hzero hne hlen, hscan]
  cases hpage : pages pfn with
  | none => simp only [hpage]
  | some r =>
      simp only [hpage]
      rfl

def Client.own : Client → Option (BitVec 32)
  | .written _ own => own
  | .closed _ own => own
  | .reopened _ own => own
  | .read _ own _ => own
  | _ => none

def Client.waiting : Client → Prop
  | .written _ _ => True
  | .closed _ _ => True
  | .reopened _ _ => True
  | _ => False

def Client.misled : Client → Prop
  | .read _ own ret => own ≠ some ret
  | _ => False

/-- The device answers with what was computed last, which is something once anything was computed for a
client. -/
structure Inv (s : State ι) : Prop where
  answers : Answers s.dev (s.last.getD 0#32)
  last : ∀ i, (s.client i).own ≠ none → s.last ≠ none

inductive Steps (s : State ι) : Event ι → State ι → Prop
  /-- A client opens or closes. -/
  | goes (i : ι) (c : Client) (e : Event ι) (own : c.own ≠ none → c.own = (s.client i).own)
      (waits : c.waiting → (s.client i).waiting ∧ c.own = (s.client i).own) (told : ¬c.misled)
      (quiet : ∀ j, e ≠ .read j) : Steps s e (s.goes i c)
  /-- A client writes. -/
  | write (i : ι) (pfn : Word) (pages : Pages) (pfnBuf : List Char) (hi : s.client i = .opened pfn) :
      Steps s (.write i pages pfnBuf)
        ⟨(refcountWrite pages pfnBuf s.dev (request pfn) 0).2.2,
          Function.update s.client i (.written pfn (pages pfn)), (pages pfn).or s.last⟩
  /-- A client reads what was computed last. -/
  | read (i : ι) (pfn : Word) (own : Option (BitVec 32)) (hi : s.client i = .reopened pfn own) :
      Steps s (.read i) (s.goes i (.read pfn own (s.last.getD 0#32)))

theorem Inv.steps (h : Inv s) (hs : step s e = some s') : Steps s e s' := by
  cases e with
  | «open» i pfn =>
      simp only [step] at hs
      split at hs
      · cases hs
        exact .goes i _ _ (fun hc => absurd rfl hc) False.elim id nofun
      · cases hs
  | write i pages pfnBuf =>
      simp only [step] at hs
      split at hs
      · next pfn hi =>
        cases hs
        exact .write i pfn pages pfnBuf hi
      · cases hs
  | close i =>
      simp only [step] at hs
      split at hs
      · next pfn own hi =>
        cases hs
        exact .goes i _ _ (fun _ => by rw [hi]; rfl) (fun _ => by rw [hi]; exact ⟨trivial, rfl⟩) id nofun
      · cases hs
  | reopen i =>
      simp only [step] at hs
      split at hs
      · next pfn own hi =>
        cases hs
        exact .goes i _ _ (fun _ => by rw [hi]; rfl) (fun _ => by rw [hi]; exact ⟨trivial, rfl⟩) id nofun
      · cases hs
  | read i =>
      simp only [step] at hs
      split at hs
      · next pfn own hi =>
        -- What is read is always a number, so the client goes on with it.
        rw [h.answers.read] at hs
        cases hs
        exact .read i pfn own hi
      · cases hs
  | done i =>
      simp only [step] at hs
      split at hs
      · cases hs
        exact .goes i _ _ (fun hc => absurd rfl hc) False.elim id nofun
      · cases hs

omit [DecidableEq ι] in
theorem Inv.init : Inv (State.init : State ι) := ⟨answers_init, fun _ h => absurd rfl h⟩

theorem State.goes_self : (s.goes i c).client i = c := by
  simp [State.goes]

/-- What holds of the client that went on and held of the others before, holds of all of them. -/
theorem forall_update (q : Client → Prop) (hc : q c) (h : ∀ j, q (s.client j)) (j : ι) :
    q (Function.update s.client i c j) := by
  by_cases hj : j = i
  · subst hj
    rwa [Function.update_self]
  · rw [Function.update_of_ne hj]
    exact h j

theorem Inv.step (h : Inv s) (hs : step s e = some s') : Inv s' := by
  cases h.steps hs with
  | goes i c e own waits told quiet =>
      refine ⟨h.answers, forall_update (fun c => c.own ≠ none → s.last ≠ none) (fun hc => ?_) h.last⟩
      apply h.last i
      rwa [← own hc]
  | write i pfn pages pfnBuf hi =>
      have hkept : s.last ≠ none → (pages pfn).or s.last ≠ none := by
        cases pages pfn with
        | none => exact id
        | some r => exact fun _ => Option.some_ne_none r
      refine ⟨?_, forall_update (fun c => c.own ≠ none → (pages pfn).or s.last ≠ none) (fun hc => ?_)
        fun j hj => hkept (h.last j hj)⟩
      · show Answers (refcountWrite pages pfnBuf s.dev (request pfn) 0).2.2 _
        rw [refcountWrite_request]
        cases pages pfn with
        | none => exact h.answers
        | some r => exact ⟨s.dev.refcountBuf, rfl⟩
      · obtain ⟨r, hr⟩ := Option.ne_none_iff_exists'.mp hc
        have hr : pages pfn = some r := hr
        rw [hr]
        exact Option.some_ne_none r
  | read i pfn own hi =>
      refine ⟨h.answers, forall_update (fun c => c.own ≠ none → s.last ≠ none) (fun hc => ?_) h.last⟩
      apply h.last i
      rwa [hi]

/-! ## Whose answer it is

The condition is about the state before a read: nobody has written since this client did, or what
was computed is the same. -/

def OwnAnswers (s : State ι) : Prop := ∀ i, ¬(s.client i).misled

/-- If the step is a read, something was computed for the reader, and the last write that succeeded
computed the same. -/
def ReadsOwn (s : State ι) (e : Event ι) : Prop :=
  ∀ i pfn own, e = .read i → s.client i = .reopened pfn own → own ≠ none ∧ s.last = own

theorem Inv.ownAnswers_iff (h : Inv s) (hq : OwnAnswers s) (hs : Exper.step s e = some s') :
    OwnAnswers s' ↔ ReadsOwn s e := by
  cases h.steps hs with
  | goes i c e own waits told quiet =>
      refine iff_of_true (forall_update (fun c => ¬c.misled) told hq) fun j pfn own' he => ?_
      exact absurd he (quiet j)
  | write i pfn pages pfnBuf hi => exact iff_of_true (forall_update (fun c => ¬c.misled) id hq) nofun
  | read i pfn own hi =>
      -- Only a read gives a client an answer: the last one that was computed.
      constructor
      · intro hq' j pfn' own' he hj
        cases he
        rw [hi] at hj
        cases hj
        have hown : own = some (s.last.getD 0#32) := by
          have := hq' i
          rw [State.goes_self] at this
          exact not_not.mp this
        have hsome : own ≠ none := by
          rw [hown]
          exact Option.some_ne_none _
        refine ⟨hsome, ?_⟩
        have hlast : s.last ≠ none := h.last i (by rwa [hi])
        obtain ⟨r, hr⟩ := Option.ne_none_iff_exists'.mp hlast
        rw [hown, hr]
        rfl
      · intro hp
        obtain ⟨hsome, hlast⟩ := hp i pfn own rfl hi
        obtain ⟨r, rfl⟩ := Option.ne_none_iff_exists'.mp hsome
        refine forall_update (fun c => ¬c.misled) (fun hmisled => hmisled ?_) hq
        rw [hlast]
        rfl

/-- **Each client reads the answer to its own question exactly if no other answer has come between.** In
every run of any number of clients, all answers are the clients' own in every state if and only if, at
every read, the reader's write succeeded and the last write that did computed the same count. -/
theorem refcount_own_iff (events : List (Event ι)) :
    Always step OwnAnswers State.init events ↔ EachStep step ReadsOwn State.init events :=
  always_iff_eachStep (fun _ _ _ h hs => Inv.step h hs) (fun _ _ _ h hq hs => h.ownAnswers_iff hq hs) Inv.init
    fun _ => id

/-! ## Clients that wait for each other

One way to meet the condition is to let only one client at a time write and read. -/

/-- If the step is a write, no other client is between its write and its read, and the page is there. -/
def Serial (s : State ι) (e : Event ι) : Prop :=
  ∀ i pages pfnBuf, e = .write i pages pfnBuf →
    (∀ j ≠ i, ¬(s.client j).waiting) ∧ ∀ pfn, s.client i = .opened pfn → pages pfn ≠ none

/-- What was computed last was computed for every client that waits. -/
structure SerialInv (s : State ι) : Prop where
  inv : Inv s
  own : OwnAnswers s
  waits : ∀ i, (s.client i).waiting → (s.client i).own ≠ none ∧ s.last = (s.client i).own

omit [DecidableEq ι] in
theorem SerialInv.readsOwn (h : SerialInv s) (e : Event ι) : ReadsOwn s e := by
  intro i pfn own _ hi
  have hwaits := h.waits i (by rw [hi]; trivial)
  rwa [hi] at hwaits

theorem SerialInv.step (h : SerialInv s) (hserial : Serial s e) (hs : Exper.step s e = some s') :
    SerialInv s' := by
  refine ⟨h.inv.step hs, (h.inv.ownAnswers_iff h.own hs).mpr (h.readsOwn e), ?_⟩
  cases h.inv.steps hs with
  | goes i c e own waits told quiet =>
      refine forall_update (fun c => c.waiting → c.own ≠ none ∧ s.last = c.own) (fun hc => ?_) h.waits
      obtain ⟨hwait, hown⟩ := waits hc
      rw [hown]
      exact h.waits i hwait
  | write i pfn pages pfnBuf hi =>
      obtain ⟨hothers, hpage⟩ := hserial i pages pfnBuf rfl
      obtain ⟨r, hr⟩ := Option.ne_none_iff_exists'.mp (hpage pfn hi)
      intro j hj
      by_cases hji : j = i
      · subst hji
        simp [Client.own, hr]
      · have hkept : Function.update s.client i (.written pfn (pages pfn)) j = s.client j :=
          Function.update_of_ne hji _ _
        simp only [hkept] at hj
        exact absurd hj (hothers j hji)
  | read i pfn own hi =>
      exact forall_update (fun c => c.waiting → c.own ≠ none ∧ s.last = c.own) False.elim h.waits

/-- Clients that write only while no other one waits for its answer are told the right thing. -/
theorem refcount_own_of_serial {events : List (Event ι)} (h : EachStep step Serial State.init events) :
    Always step OwnAnswers State.init events :=
  (always_of_eachStep (fun _ _ _ h hserial hs => SerialInv.step h hserial hs)
    ⟨Inv.init, fun _ => id, fun _ => False.elim⟩ h).imp fun _ h => h.own

end

/-- Two clients ask for the pages 1 and 2, which have as many references. The second one writes before
the first one has read. -/
theorem refcount_mixed_up : ∃ (events : List (Event Bool)) (s : State Bool),
    run step State.init events = some s ∧ s.client false = .read 1 (some 1) 2 ∧ ¬OwnAnswers s := by
  have hrun : ((run step State.init [.open false 1, .open true 2,
      .write false (fun pfn => some (pfn.setWidth 32)) [], .write true (fun pfn => some (pfn.setWidth 32)) [],
      .close false, .reopen false, .read false]).map fun s => s.client false) =
        some (.read 1 (some 1) 2) := by
    decide
  obtain ⟨s, hs, hread⟩ := Option.map_eq_some_iff.mp hrun
  refine ⟨_, s, hs, hread, fun hown => hown false ?_⟩
  rw [hread]
  show some 1#32 ≠ some 2#32
  decide

end MmExper.Exper
