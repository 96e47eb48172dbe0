import Atomicity.Proofs.Complying
import Atomicity.Proofs.Lock.Tenure
import Atomicity.Proofs.Lock.Uses
import Atomicity.Proofs.ManyCores.World

/-!
# Turns at a lock

What the instructions of a context do to the word of a lock while other contexts take turns at it.
The other contexts may do what other cores do (`Drift`), and where all contexts **share** one core,
they do nothing as long as this one has its interrupts masked (`Rely`).

`turnTaking` is the discipline: each instruction is a turn, if the word tells whether the lock is
held, and what the lock guards is accessed by whoever holds it. A law may be added to it that says
what of that has been executed so far, depending on whether the lock is held.

**To swap the word is one turn** (`testSetLock`), on every backend, and so is to free the lock
(`release`). On an exclusive pair, whatever the store-exclusive stores over has been found by the
load-exclusive before it; on a global lock, interrupts are masked in between, and the contexts share
one core.

**A program that uses a lock properly takes turns** (`of_uses`), for as long as its context has not
found the word zero while it held the lock (`Unbroken`). On that condition an attempt of whoever
holds the lock is refused, so that the program does not go on as if it were not.
-/

namespace Atomicity

namespace ManyCores

open Discipline Prog

/-- What other contexts may have done, `sharing` being the controller of the core that all of them
share, if they share one. -/
structure Rely (sharing : Option Controller) (s s' : State) : Prop where
  drift : Drift s s'
  enabled : ∀ c, sharing = some c → c.enabled s'.core = c.enabled s.core
  frozen : ∀ c, sharing = some c → c.enabled s.core = false → s' = s

theorem Rely.refl (sharing : Option Controller) (s : State) : Rely sharing s s :=
  ⟨Drift.refl s, fun _ _ => rfl, fun _ _ _ => rfl⟩

theorem Rely.trans {sharing : Option Controller} {s s' s'' : State} (h : Rely sharing s s')
    (h' : Rely sharing s' s'') : Rely sharing s s'' where
  drift := h.drift.trans h'.drift
  enabled c hc := (h'.enabled c hc).trans (h.enabled c hc)
  frozen c hc hs := by
    have heq := h.frozen c hc hs
    exact (h'.frozen c hc (heq ▸ hs)).trans heq

/-- What a context may do at the lock at `a`, which guards what is at `d`. -/
def turnTaking (sharing : Option Controller) (a d : Addr) (law : Bool → List Executed → Prop) :
    Discipline (List Executed) where
  env _ := Rely sharing
  own i r log s log' s' :=
    log' = ⟨i, r⟩ :: log ∧
    (i.target? = some d → (tenure a log).holds = true) ∧
    law (tenure a log').holds (touched d log') ∧
    (Legible (tenure a log).holds (s.read .w64 a) →
      Turn (tenure a log).holds (tenure a log').holds (s.read .w64 a) (s'.read .w64 a))

/-- What a context may do that has not found the word zero while it held the lock. -/
def unbrokenTurns (sharing : Option Controller) (a d : Addr) (law : Bool → List Executed → Prop) :
    Discipline (List Executed) :=
  (turnTaking sharing a d law).asLongAs (Unbroken a)

/-- A context holds the lock or does not, and has executed that on what the lock guards. If it has
not found the word zero while it held the lock, a fact is known. -/
structure Holding (a d : Addr) (held : Bool) (done : List Executed) (fact : Prop)
    (log : List Executed) (_ : State) : Prop where
  holds : (tenure a log).holds = held
  touched : touched d log = done
  fact : Unbroken a log → fact

theorem Holding.anywhere {a d : Addr} {held : Bool} {done log : List Executed}
    {fact : Prop} {s : State} (h : Holding a d held done fact log s) (s' : State) :
    Holding a d held done fact log s' :=
  ⟨h.holds, h.touched, h.fact⟩

theorem Holding.forget {a d : Addr} {held : Bool} {done log : List Executed}
    {fact : Prop} {s : State} (h : Holding a d held done fact log s) :
    Holding a d held done True log s :=
  ⟨h.holds, h.touched, fun _ => trivial⟩

/-- The word has been found, and it is not zero if the context held the lock. -/
def NotFree (held : Bool) (found : Word .w64) : Prop := held = true → found ≠ 0

variable {sharing : Option Controller} {a d : Addr}
  {law : Bool → List Executed → Prop} {held : Bool}
  {fact : Prop} {done log : List Executed} {s s' : State} {v : Word .w64}

namespace Turns

theorem instr {i : Instr} {R : List Executed → State → Prop}
    {M : i.Reply → List Executed → State → Prop}
    (h : ∀ log s s' refused, R log s → Rely sharing s s' →
      (turnTaking sharing a d law).own i (i.exec refused s').1 log s'
        (⟨i, (i.exec refused s').1⟩ :: log) (i.exec refused s').2 ∧
      M (i.exec refused s').1 (⟨i, (i.exec refused s').1⟩ :: log) (i.exec refused s').2) :
    (turnTaking sharing a d law).Leads R (perform i) M :=
  .instr fun log s s' refused hs he => ⟨_, h log s s' refused hs he⟩

/-! ## Instructions on other words -/

/-- An instruction with another target is a turn, in which nothing happens to the lock. -/
theorem own_of_target? {i : Instr} (hi : i.target? ≠ some a) (hd : i.target? = some d → held = true)
    (hs : (tenure a log).holds = held) (refused : Bool) (s : State)
    (hlaw : law held (touched d (⟨i, (i.exec refused s).1⟩ :: log))) :
    (turnTaking sharing a d law).own i (i.exec refused s).1 log s (⟨i, (i.exec refused s).1⟩ :: log)
      (i.exec refused s).2 := by
  refine ⟨rfl, fun h => hs.trans (hd h), ?_, fun _ => ?_⟩
  · rw [tenure_of_target? hi, hs]
    exact hlaw
  · rw [tenure_of_target? hi, Instr.read_of_target? hi]
    exact .stay _ _

theorem elsewhere {i : Instr} (ha : i.target? ≠ some a) (hd : i.target? ≠ some d)
    (hlaw : law held done) :
    (turnTaking sharing a d law).Leads (Holding a d held done fact) (perform i)
      fun _ => Holding a d held done fact := by
  refine instr fun log s s' refused hs _ => ?_
  refine ⟨own_of_target? ha (fun h => absurd h hd) hs.holds refused s' ?_, ?_, ?_,
    fun h => hs.fact h.2⟩
  · rw [touched_of_target? hd, hs.touched]
    exact hlaw
  · rw [tenure_of_target? ha]
    exact hs.holds
  · rw [touched_of_target? hd]
    exact hs.touched

/-- What the lock guards is accessed by whoever holds the lock. -/
theorem access (hda : d ≠ a) {i : Instr} (hi : i.target? = some d)
    (hlaw : ∀ r, law true (⟨i, r⟩ :: done)) :
    (turnTaking sharing a d law).Leads (Holding a d true done fact) (perform i)
      fun r => Holding a d true (⟨i, r⟩ :: done) fact := by
  refine instr fun log s s' refused hs _ => ?_
  have ha : i.target? ≠ some a := by
    rw [hi]
    exact fun h => hda (Option.some.inj h)
  have hdone : touched d (⟨i, (i.exec refused s').1⟩ :: log) =
      ⟨i, (i.exec refused s').1⟩ :: done := by
    rw [touched_cons hi, hs.touched]
  refine ⟨own_of_target? ha (fun _ => rfl) hs.holds refused s' ?_, ?_, hdone, fun h => hs.fact h.2⟩
  · rw [hdone]
    exact hlaw _
  · rw [tenure_of_target? ha]
    exact hs.holds

theorem still (hlaw : law held done) :
    (turnTaking sharing a d law).Still (Holding a d held done fact) := by
  intro i hi _
  have htarget := Instr.target?_ne_of_eq_none hi
  exact elsewhere (htarget a) (htarget d) hlaw

/-! ## Instructions on the word -/

section

variable (hda : d ≠ a) (hlaw : ∀ held, law held done)

include hda hlaw

/-- An instruction on the word leaves alone what the lock guards. -/
theorem own_of_turn {i : Instr} {r : i.Reply} {held' : Bool} {fact' : Prop}
    (hi : i.target? = some a) (hs : Holding a d held done fact log s)
    (hheld : (tenure a (⟨i, r⟩ :: log)).holds = held')
    (hturn : Legible held (s.read .w64 a) → Turn held held' (s.read .w64 a) (s'.read .w64 a))
    (hfact : Unbroken a (⟨i, r⟩ :: log) → fact') :
    (turnTaking sharing a d law).own i r log s (⟨i, r⟩ :: log) s' ∧
      Holding a d held' done fact' (⟨i, r⟩ :: log) s' := by
  have hd : i.target? ≠ some d := by
    rw [hi]
    exact fun h => hda (Option.some.inj h).symm
  have hdone : touched d (⟨i, r⟩ :: log) = done := (touched_of_target? hd).trans hs.touched
  refine ⟨⟨rfl, fun h => absurd h hd, ?_, ?_⟩, hheld, hdone, hfact⟩
  · rw [hdone]
    exact hlaw _
  · rw [hs.holds, hheld]
    exact hturn

/-- An instruction that stores over what has been found. -/
theorem own_of_store {i : Instr} {r : i.Reply} {t : Tenure} {fact' : Prop} (hi : i.target? = some a)
    (hs : Holding a d held done fact log s) (hv : Allowed v held) (ht : t.holds = held)
    (hf : t.found = some (s.read .w64 a)) (hstore : tenure a (⟨i, r⟩ :: log) = t.store v)
    (hs' : s'.read .w64 a = v) (hfact : Unbroken a (⟨i, r⟩ :: log) → fact') :
    (turnTaking sharing a d law).own i r log s (⟨i, r⟩ :: log) s' ∧
      Holding a d (taken held v (s.read .w64 a)) done fact' (⟨i, r⟩ :: log) s' := by
  subst ht
  have hholds : (t.store v).holds = taken t.holds v (s.read .w64 a) := Tenure.holds_store hf
  refine own_of_turn hda hlaw hi hs (hstore ▸ hholds) (fun hl => ?_) hfact
  rw [hs', ← hholds]
  exact Tenure.turn_store hv hf hl

omit hda hlaw in
/-- What is loaded from the word is not zero if the context holds the lock. -/
theorem notFree_of_loaded {i : Instr} {r : i.Reply} {found : Word .w64}
    (hs : Holding a d held done fact log s) (hloaded : .loaded .w64 a found ∈ i.accesses r)
    (h : Unbroken a (⟨i, r⟩ :: log)) : NotFree held found := by
  rintro hheld rfl
  exact h.1 (hs.holds.trans hheld) hloaded

theorem swap (isa : SwapIsa) (hv : Allowed v held) :
    (turnTaking sharing a d law).Leads (Holding a d held done fact) (perform (.swap isa .w64 a v))
      fun r => Holding a d (taken held v r) done (NotFree held r) := by
  refine instr fun log s s' refused hs _ => ?_
  replace hs := hs.anywhere s'
  exact own_of_store (t := (tenure a log).find (s'.read .w64 a)) hda hlaw rfl hs hv hs.holds rfl
    (tenure_swap isa v _) (State.read_write_self _ _ _ _) (notFree_of_loaded hs List.mem_cons_self)

/-- The lock is freed by a plain write. -/
theorem write_zero :
    (turnTaking sharing a d law).Leads (Holding a d true done fact) (perform (.write .w64 a 0))
      fun _ => Holding a d false done fact := by
  refine instr fun log s s' refused hs _ => ?_
  replace hs := hs.anywhere s'
  have hword : ((Instr.write .w64 a 0).exec refused s').2.read .w64 a = 0 :=
    State.read_write_self _ _ _ _
  refine own_of_turn hda hlaw rfl hs ?_ (fun _ => ?_) fun h => hs.fact h.2
  · rw [tenure_write]
    rfl
  · rw [hword]
    exact .free _

/-- The word is looked at. -/
theorem peek :
    (turnTaking sharing a d law).Leads (Holding a d held done fact) (perform (.read .w64 a))
      fun _ => Holding a d held done fact := by
  refine instr fun log s s' refused hs _ => ?_
  replace hs := hs.anywhere s'
  refine own_of_turn hda hlaw rfl hs ?_ (fun _ => .stay _ _) fun h => hs.fact h.2
  rw [tenure_read]
  exact hs.holds

/-! ### Exclusive pairs -/

/-- What a load-exclusive has found is in the word as long as the monitor is open. -/
def Loaded (a d : Addr) (held : Bool) (done : List Executed) (r : Register .w64)
    (log : List Executed) (s : State) : Prop :=
  Holding a d held done (NotFree held (Register.toWord r)) log s ∧
    (tenure a log).found = some (Register.toWord r) ∧ Reserved .w64 a (Register.toWord r) () s

theorem loadExclusive (isa : PairIsa) :
    (turnTaking sharing a d law).Leads (Holding a d held done fact)
      (perform (.loadExclusive isa .w64 a)) (Loaded a d held done) := by
  refine instr fun log s s' refused hs _ => ?_
  replace hs := hs.anywhere s'
  have hword : Register.toWord (Word.toRegister (s'.read .w64 a)) = s'.read .w64 a :=
    Register.toWord_toRegister _
  have hheld :
      (tenure a (⟨.loadExclusive isa .w64 a, Word.toRegister (s'.read .w64 a)⟩ :: log)).holds =
      held := by
    rw [tenure_loadExclusive]
    exact hs.holds
  refine And.imp_right (fun hholding => ?_) (own_of_turn hda hlaw rfl hs hheld (fun _ => .stay _ _)
    (notFree_of_loaded hs (List.mem_singleton_self _)))
  refine ⟨hholding, ?_, fun _ => hword.symm⟩
  rw [tenure_loadExclusive]
  rfl

theorem storeExclusive (isa : PairIsa) (hv : Allowed v held) (r : Register .w64) :
    (turnTaking sharing a d law).Leads (Loaded a d held done r)
      (perform (.storeExclusive isa .w64 a (Word.toRegister v)))
      fun ok log s =>
        if ok then
          Holding a d (taken held v (Register.toWord r)) done
            (NotFree held (Register.toWord r)) log s
        else Holding a d held done True log s := by
  refine instr fun log s s' refused hs he => ?_
  obtain ⟨hs, hfound, hreserved⟩ := hs
  replace hs := hs.anywhere s'
  by_cases hstores : s'.core.monitor = some ⟨.w64, a⟩ ∧ refused = false
  -- the monitor is open, so the word is what has been found
  · have hexec : (Instr.storeExclusive isa .w64 a (Word.toRegister v)).exec refused s' =
        (true, (s'.write .w64 a v).reserve none) := by
      simp only [Instr.exec, if_pos hstores, Register.toWord_toRegister]
    have hword : s'.read .w64 a = Register.toWord r := (hreserved.drift he.drift) hstores.1
    have hfound' : (tenure a log).found = some (s'.read .w64 a) := by rw [hfound, hword]
    rw [hexec, ← hword]
    exact own_of_store hda hlaw rfl hs hv hs.holds hfound' (by rw [tenure_storeExclusive]; rfl)
      (State.read_write_self _ _ _ _) fun h => hword ▸ hs.fact h.2
  · have hexec : (Instr.storeExclusive isa .w64 a (Word.toRegister v)).exec refused s' =
        (false, s'.reserve none) := if_neg hstores
    rw [hexec]
    exact own_of_turn hda hlaw rfl hs (by rw [tenure_storeExclusive]; exact hs.holds)
      (fun _ => .stay _ _) fun _ => trivial

/-! ### Interrupts masked -/

/-- The context has its interrupts enabled, or masked, on the core that the contexts share. -/
def Flagged (c : Controller) (a d : Addr) (held : Bool) (done : List Executed)
    (fact : Prop) (f : Bool) (log : List Executed) (s : State) : Prop :=
  Holding a d held done fact log s ∧ c.enabled s.core = f

variable {c : Controller} (hc : sharing = some c)

include hc

omit hda in
theorem commands (held : Bool) (fact : Prop) :
    (turnTaking sharing a d law).Commands c True (Flagged c a d held done fact) := by
  intro i f e P hi _ hflag
  refine instr fun log s s' refused hs he => ?_
  have hf : c.enabled s'.core = f := (he.enabled c hc).trans hs.2
  have htarget := Instr.target?_ne_of_eq_none hi
  obtain ⟨hP, he⟩ := hflag s' refused hf
  refine ⟨own_of_target? (htarget a) (fun h => absurd h (htarget d)) hs.1.holds refused s' ?_, hP,
    ⟨?_, ?_, fun h => hs.1.fact h.2⟩, he⟩
  · rw [touched_of_target? (htarget d), hs.1.touched]
    exact hlaw held
  · rw [tenure_of_target? (htarget a)]
    exact hs.1.holds
  · rw [touched_of_target? (htarget d)]
    exact hs.1.touched

/-- With interrupts masked, what has been found is in the word. -/
def Found (c : Controller) (a d : Addr) (held : Bool) (done : List Executed) (r : Word .w64)
    (log : List Executed) (s : State) : Prop :=
  Flagged c a d held done (NotFree held r) false log s ∧ (tenure a log).found = some r ∧
    s.read .w64 a = r

theorem masked_read :
    (turnTaking sharing a d law).Leads (Flagged c a d held done fact false) (perform (.read .w64 a))
      (Found c a d held done) := by
  refine instr fun log s s' refused hs he => ?_
  obtain rfl : s' = s := he.frozen c hc hs.2
  have hheld : (tenure a (⟨.read .w64 a, s'.read .w64 a⟩ :: log)).holds = held := by
    rw [tenure_read]
    exact hs.1.holds
  refine And.imp_right (fun hholding => ?_)
    (own_of_turn hda hlaw rfl hs.1 hheld (fun _ => .stay _ _)
    (notFree_of_loaded hs.1 (List.mem_singleton_self _)))
  refine ⟨⟨hholding, hs.2⟩, ?_, rfl⟩
  rw [tenure_read]
  rfl

theorem masked_write (hv : Allowed v held) (r : Word .w64) :
    (turnTaking sharing a d law).Leads (Found c a d held done r) (perform (.write .w64 a v))
      fun _ => Flagged c a d (taken held v r) done (NotFree held r) false := by
  refine instr fun log s s' refused hs he => ?_
  obtain rfl : s' = s := he.frozen c hc hs.1.2
  obtain ⟨⟨hs, hf⟩, hfound, rfl⟩ := hs
  obtain ⟨hown, hholding⟩ := own_of_store hda hlaw rfl hs hv hs.holds hfound (tenure_write v ())
    (State.read_write_self s' .w64 a v) fun h => hs.fact h.2
  exact ⟨hown, hholding, hf⟩

theorem maskedSwap (hv : Allowed v held) (isa : Isa) :
    (turnTaking sharing a d law).Leads (Holding a d held done fact) (Backend.maskedSwap c isa a v)
      fun r => Holding a d (taken held v r) done (NotFree held r) := by
  intro log s hs
  have still' :
      ∀ held fact, (turnTaking sharing a d law).Still (Flagged c a d held done fact false) := by
    intro held fact i hi hexec
    refine (commands hlaw hc held fact).instr i hi (fun _ _ => trivial) fun s refused hf => ?_
    rw [hexec]
    exact hf
  have h : (turnTaking sharing a d law).Leads (Flagged c a d held done fact (c.enabled s.core))
      (Backend.maskedSwap c isa a v)
      fun r => Flagged c a d (taken held v r) done (NotFree held r) (c.enabled s.core) :=
    .maskedSwap (Found c a d held done) (commands hlaw hc held fact)
      (fun r => commands hlaw hc (taken held v r) (NotFree held r)) (still' held fact)
      (fun r => still' (taken held v r) (NotFree held r)) (fun _ => trivial)
      (masked_read hda hlaw hc) (masked_write hda hlaw hc hv)
  exact (h log s ⟨hs, rfl⟩).mono fun _ _ _ h => h.1

end

/-! ## The operations of a lock -/

section

variable {b : Backend} (hda : d ≠ a) (hlaw : ∀ held, law held done)
  (hshare : ∀ c base, b = .globalLock c base → sharing = some c)

include hda hlaw hshare

/-- **To swap the word of a lock is one turn**, on every backend. -/
theorem testSetLock (hv : Allowed v held) :
    (turnTaking sharing a d law).Leads (Holding a d held done True) (b.testSetLock a v)
      fun r => Holding a d (taken held v r) done (NotFree held r) :=
  .testSetLock (Loaded a d held done) (still (hlaw held)) (fun r => still (hlaw (taken held v r)))
    (swap hda hlaw · hv) (loadExclusive hda hlaw) (storeExclusive hda hlaw · hv)
    fun c base hb => maskedSwap hda hlaw (hshare c base hb) hv

/-- Whoever holds the lock is refused. -/
theorem tryAcquire :
    (turnTaking sharing a d law).Leads (Holding a d held done True) (RawLock.tryAcquire ⟨a⟩ b)
      fun ok => Holding a d (held || ok) done (held = true → ok = false) :=
  .map ((testSetLock hda hlaw hshare (.inl rfl)).mono fun _ _ _ h =>
    ⟨h.holds, h.touched, fun hlog hheld => beq_eq_false_iff_ne.mpr (h.fact hlog hheld)⟩)

/-- Whoever holds the lock waits for ever. -/
theorem acquire :
    (turnTaking sharing a d law).Leads (Holding a d held done True) (RawLock.acquire ⟨a⟩ b)
      fun _ => Holding a d true done (held = false) := by
  refine .untilTrue ((tryAcquire hda hlaw hshare).mono fun ok log s h => ?_)
  cases ok with
  | true =>
    refine ⟨h.holds.trans (Bool.or_true held), h.touched, fun hlog => ?_⟩
    exact Bool.eq_false_iff.mpr fun hheld => Bool.noConfusion (h.fact hlog hheld)
  | false => exact ⟨h.holds.trans (Bool.or_false held), h.touched, fun _ => trivial⟩

theorem release :
    (turnTaking sharing a d law).Leads (Holding a d true done fact) (RawLock.release ⟨a⟩ b)
      fun _ => Holding a d false done True := by
  refine .privilegedStore (still (hlaw true)) (still (hlaw false))
    ((write_zero hda hlaw).mono fun _ _ _ h => h.forget) fun c base hb isa => ?_
  exact (maskedSwap hda hlaw (hshare c base hb) (.inr ⟨rfl, rfl⟩) isa).mono fun _ _ _ h => h.forget

omit hshare in
theorem isLocked :
    (turnTaking sharing a d law).Leads (Holding a d held done True) (RawLock.isLocked ⟨a⟩ b)
      fun _ => Holding a d held done True :=
  .map (.fenced (still (hlaw held)) (fun _ => still (hlaw held)) (peek hda hlaw))

end

/-! ## Proper programs -/

section

variable {α : Type} {p : Prog α} {M : α → List Executed → State → Prop}

theorem log_of_own (i : Instr) (r : i.Reply) (log : List Executed) (s : State)
    (log' : List Executed) (s' : State) (h : (turnTaking sharing a d law).own i r log s log' s') :
    log' = ⟨i, r⟩ :: log :=
  h.1

theorem unbroken_tail (e : Executed) (log : List Executed) (h : Unbroken a (e :: log)) :
    Unbroken a log :=
  h.2

theorem leads_unbroken {R : List Executed → State → Prop}
    (h : (turnTaking sharing a d law).Leads R p M) :
    (unbrokenTurns sharing a d law).Leads (fun log s => Unbroken a log → R log s) p
      fun x log s => Unbroken a log → M x log s :=
  Leads.asLongAs log_of_own unbroken_tail h

/-- It is enough to look at contexts that have not found the word zero while they held the lock. -/
theorem leads_of_held {Φ : Bool → Prop}
    (h : ∀ held, Φ held → (unbrokenTurns sharing a d law).Leads
      (fun log _ => Unbroken a log → (tenure a log).holds = held) p
      fun x log s => Unbroken a log → M x log s) :
    (unbrokenTurns sharing a d law).Leads (fun log _ => Unbroken a log → Φ (tenure a log).holds) p
      fun x log s => Unbroken a log → M x log s := by
  intro log s hs
  by_cases hlog : Unbroken a log
  · exact h _ (hs hlog) log s fun _ => rfl
  · exact fun n => Keeps.asLongAs log_of_own unbroken_tail fun h => absurd h hlog

end

/-- **A program that uses a lock properly takes turns at it.** -/
theorem of_uses {α : Type} {l : RawLock} {b : Backend} {held : Bool} {p : Prog α}
    {k : α → Bool → Prop} (hda : d ≠ l.word)
    (hshare : ∀ c base, b = .globalLock c base → sharing = some c) (h : l.Uses b d held p k) :
    (unbrokenTurns sharing l.word d fun _ _ => True).Leads
      (fun log _ => Unbroken l.word log → (tenure l.word log).holds = held) p
      fun x log _ => Unbroken l.word log → k x (tenure l.word log).holds := by
  -- what has been executed on the data so far does not matter
  have forget : ∀ {β : Type} {q : Prog β} {held : Bool} {now : β → Bool} {fact : β → Prop},
      (∀ done, (turnTaking sharing l.word d fun _ _ => True).Leads
        (Holding l.word d held done True) q fun x => Holding l.word d (now x) done (fact x)) →
      (unbrokenTurns sharing l.word d fun _ _ => True).Leads
        (fun log _ => Unbroken l.word log → (tenure l.word log).holds = held) q
        fun x log _ => Unbroken l.word log → (tenure l.word log).holds = now x ∧ fact x := by
    intro β q held now fact h
    have hleads : (turnTaking sharing l.word d fun _ _ => True).Leads
        (fun log _ => (tenure l.word log).holds = held) q
        fun x log _ => Unbroken l.word log → (tenure l.word log).holds = now x ∧ fact x :=
      fun log s hs => (h _ log s ⟨hs, rfl, fun _ => trivial⟩).mono fun _ _ _ h hlog =>
        ⟨h.holds, h.fact hlog⟩
    exact (leads_unbroken hleads).mono fun _ _ _ h hlog => h hlog hlog
  induction h with
  | acquire =>
    exact (forget fun _ => acquire hda (fun _ => trivial) hshare).mono fun _ _ _ h hlog =>
      (h hlog).symm
  | tryAcquire => exact forget fun _ => tryAcquire hda (fun _ => trivial) hshare
  | release =>
    exact (forget fun _ => release hda (fun _ => trivial) hshare).mono
      fun _ _ _ h hlog => (h hlog).1
  | isLocked =>
    exact (forget fun _ => isLocked hda fun _ => trivial).mono fun _ _ _ h hlog => (h hlog).1
  | other hp =>
    refine leads_unbroken (.all (fun i hi => instr fun log s s' refused hs _ => ?_) hp)
    refine ⟨own_of_target? hi.1 hi.2 hs refused s' trivial, ?_⟩
    rw [tenure_of_target? hi.1]
    exact hs
  | ret x h => exact .ret fun log s hs hlog => (hs hlog).symm ▸ h
  | bind _ _ ihfirst ihnext =>
    exact ihfirst.bind fun x => leads_of_held fun now hnow => ihnext x now hnow
  | @iterate σ β held body inv after _ x hx ih =>
    have hround : ∀ x, (unbrokenTurns sharing l.word d fun _ _ => True).Leads
        (fun log _ => Unbroken l.word log → inv x (tenure l.word log).holds) (body x)
        fun r log s => r.elim (fun x => Unbroken l.word log → inv x (tenure l.word log).holds)
          fun b => Unbroken l.word log → after b (tenure l.word log).holds := by
      intro x
      refine (leads_of_held fun now hnow => ih x now hnow).mono fun r log s h => ?_
      cases r with
      | inl x => exact h
      | inr b => exact h
    exact (Leads.iterate hround x).weaken fun log s hs hlog => (hs hlog).symm ▸ hx

end Turns

end ManyCores

end Atomicity
