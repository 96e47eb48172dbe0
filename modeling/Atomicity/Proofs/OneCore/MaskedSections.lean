import Atomicity.Proofs.Lock.Nests
import Atomicity.Proofs.Lock.Tenure
import Atomicity.Proofs.OneCore.Machine

/-!
# Critical sections with interrupts masked

What a context on one core does to one lock that is only ever taken with interrupts masked. A
handler may come just before an instruction where interrupts are enabled, and it leaves them enabled
and the lock free (`Quiet`). In return (`Sealed`), the word of the lock is one while the context
holds it and zero while it does not, interrupts are masked while it does, and it has never found the
lock taken.

`At` is where a context stands: it holds the lock or not, with interrupts enabled or masked. With
interrupts masked nothing happens between two instructions, so what has been found in the word is
there when it is stored over (`own_of_store`), and a lock that its context does not hold is found
free.

**A program that nests its critical sections keeps every lock sealed** (`of_nests`), whatever the
locks are, on every backend.
-/

namespace Atomicity.OneCore

open Discipline Prog

/-- Interrupts are enabled, and the lock at `a` is free. -/
def Quiet (c : Controller) (a : Addr) (s : State) : Prop :=
  c.enabled s.core = true ∧ s.read .w64 a = 0

/-- The lock at `a` is as its context, which has executed that, may leave it. -/
structure Sealed (c : Controller) (a : Addr) (log : List Executed) (s : State) : Prop where
  word : s.read .w64 a = if (tenure a log).holds then 1 else 0
  masked : (tenure a log).holds = true → c.enabled s.core = false
  spun : (tenure a log).spun = false

/-- What a context may do about the lock at `a`, which guards what is at `d`. -/
def sections (c : Controller) (a d : Addr) : Discipline (List Executed) where
  env i s s' := s' = s ∨ i.preemptible = true ∧ c.enabled s.core = true ∧ Quiet c a s'
  own i r log _ log' s' :=
    log' = ⟨i, r⟩ :: log ∧ (i.target? = some d → (tenure a log).holds = true) ∧ Sealed c a log' s'

theorem sections_refl (c : Controller) (a d : Addr) (i : Instr) (s : State) :
    (sections c a d).env i s s :=
  .inl rfl

/-- A context holds the lock or does not, with interrupts enabled or masked. -/
structure At (c : Controller) (a : Addr) (held flag : Bool) (log : List Executed) (s : State) :
    Prop where
  sealed : Sealed c a log s
  holds : (tenure a log).holds = held
  flag : c.enabled s.core = flag

namespace At

variable {c : Controller} {a d : Addr} {held flag : Bool} {log : List Executed} {s s' : State}

theorem held_masked (h : At c a held flag log s) (hheld : held = true) : flag = false := by
  rw [← h.flag]
  exact h.sealed.masked (h.holds.trans hheld)

theorem not_held (h : At c a held true log s) : held = false :=
  Bool.eq_false_iff.mpr fun hheld => Bool.false_ne_true (h.held_masked hheld).symm

/-- What handlers do leaves a context where it is. -/
theorem disturbed {i : Instr} (h : At c a held flag log s) (he : (sections c a d).env i s s') :
    At c a held flag log s' := by
  rcases he with rfl | ⟨-, henabled, hquiet⟩
  · exact h
  · obtain rfl : flag = true := h.flag.symm.trans henabled
    obtain rfl := h.not_held
    refine ⟨⟨?_, fun hheld => ?_, h.sealed.spun⟩, h.holds, hquiet.1⟩
    · rw [hquiet.2, h.holds]
      rfl
    · rw [h.holds] at hheld
      cases hheld

/-- With interrupts masked, nothing happens in between. -/
theorem frozen {i : Instr} (h : At c a held false log s) (he : (sections c a d).env i s s') :
    s' = s :=
  he.resolve_right fun henabled => Bool.false_ne_true (h.flag.symm.trans henabled.2.1)

/-- An instruction with another target leaves the lock alone. -/
theorem exec {i : Instr} {e : Bool} (h : At c a held flag log s) (ha : i.target? ≠ some a)
    (refused : Bool) (he : c.enabled (i.exec refused s).2.core = e)
    (hmasked : held = true → e = false) :
    At c a held e (⟨i, (i.exec refused s).1⟩ :: log) (i.exec refused s).2 := by
  have htenure : tenure a (⟨i, (i.exec refused s).1⟩ :: log) = tenure a log := tenure_of_target? ha
  refine ⟨⟨?_, fun hheld => ?_, ?_⟩, ?_, he⟩
  · rw [htenure, Instr.read_of_target? ha, h.sealed.word]
  · rw [htenure, h.holds] at hheld
    exact he.trans (hmasked hheld)
  · rw [htenure]
    exact h.sealed.spun
  · rw [htenure]
    exact h.holds

end At

namespace Sections

variable {c : Controller} {a d : Addr} {held flag : Bool} {log : List Executed} {s s' : State}
  {v : Word .w64}

theorem instr {i : Instr} {R : List Executed → State → Prop}
    {M : i.Reply → List Executed → State → Prop} (hR : ∀ log s, R log s → At c a held flag log s)
    (stable : ∀ log s s', R log s → (sections c a d).env i s s' → R log s')
    (h : ∀ log s refused, R log s → (i.target? = some d → held = true) ∧
      Sealed c a (⟨i, (i.exec refused s).1⟩ :: log) (i.exec refused s).2 ∧
      M (i.exec refused s).1 (⟨i, (i.exec refused s).1⟩ :: log) (i.exec refused s).2) :
    (sections c a d).Leads R (perform i) M := by
  refine .instr fun log s s' refused hs he => ?_
  replace hs := stable log s s' hs he
  obtain ⟨hd, hsealed, hM⟩ := h log s' refused hs
  exact ⟨_, ⟨rfl, fun ht => (hR log s' hs).holds.trans (hd ht), hsealed⟩, hM⟩

/-- An instruction wherever a context may stand. -/
theorem instr_at {i : Instr} {M : i.Reply → List Executed → State → Prop}
    (h : ∀ log s refused, At c a held flag log s → (i.target? = some d → held = true) ∧
      Sealed c a (⟨i, (i.exec refused s).1⟩ :: log) (i.exec refused s).2 ∧
      M (i.exec refused s).1 (⟨i, (i.exec refused s).1⟩ :: log) (i.exec refused s).2) :
    (sections c a d).Leads (At c a held flag) (perform i) M :=
  instr (fun _ _ h => h) (fun _ _ _ => At.disturbed) h

/-! ## Instructions on other words -/

theorem other {i : Instr} (hi : i.controls = false) (ha : i.target? ≠ some a)
    (hd : i.target? = some d → held = true) :
    (sections c a d).Leads (At c a held flag) (perform i) fun _ => At c a held flag := by
  refine instr_at fun log s refused hs => ?_
  have hs' :=
    hs.exec ha refused ((c.enabled_of_not_controls hi refused s).trans hs.flag) hs.held_masked
  exact ⟨hd, hs'.sealed, hs'⟩

theorem still : (sections c a d).Still (At c a held flag) := by
  intro i hi hexec
  refine instr_at fun log s refused hs => ?_
  have ha := Instr.target?_ne_of_eq_none hi a
  have hflag : c.enabled (i.exec refused s).2.core = flag := by
    rw [hexec]
    exact hs.flag
  have hs' := hs.exec ha refused hflag hs.held_masked
  refine ⟨fun hd => ?_, hs'.sealed, hs'⟩
  rw [hi] at hd
  cases hd

/-- Interrupts may be enabled while the lock is not held. -/
theorem commands : (sections c a d).Commands c (held = false) (At c a held) := by
  intro i f e P hi hallowed hflag
  refine instr_at fun log s refused hs => ?_
  have ha := Instr.target?_ne_of_eq_none hi a
  obtain ⟨hP, he⟩ := hflag s refused hs.flag
  have hmasked : held = true → e = false := by
    intro hheld
    refine Bool.eq_false_iff.mpr fun henabled => ?_
    have hfree := hallowed henabled (hs.held_masked hheld)
    exact Bool.false_ne_true (hfree.symm.trans hheld)
  have hs' := hs.exec ha refused he hmasked
  refine ⟨fun hd => ?_, hs'.sealed, hP, hs'⟩
  rw [hi] at hd
  cases hd

/-! ## Instructions on the word -/

/-- A context with interrupts masked has found what is in the word of the lock. -/
def Seen (c : Controller) (a : Addr) (held : Bool) (found : Word .w64)
    (log : List Executed) (s : State) :
    Prop :=
  At c a held false log s ∧ (tenure a log).found = some found ∧ s.read .w64 a = found

theorem instr_seen {i : Instr} {found : Word .w64} {M : i.Reply → List Executed → State → Prop}
    (h : ∀ log s refused, Seen c a held found log s → (i.target? = some d → held = true) ∧
      Sealed c a (⟨i, (i.exec refused s).1⟩ :: log) (i.exec refused s).2 ∧
      M (i.exec refused s).1 (⟨i, (i.exec refused s).1⟩ :: log) (i.exec refused s).2) :
    (sections c a d).Leads (Seen c a held found) (perform i) M :=
  instr (fun _ _ hs => hs.1) (fun _ _ _ hs he => (hs.1.frozen he).symm ▸ hs) h

/-- What is stored over what has been found leaves the word saying whether the lock is held. -/
theorem at_of_store {i : Instr} {r : i.Reply} {t : Tenure} (hs : At c a held false log s)
    (hv : Proper v held) (ht : t.holds = held) (hspun : t.spun = (tenure a log).spun)
    (hf : t.found = some (s.read .w64 a)) (hstore : tenure a (⟨i, r⟩ :: log) = t.store v)
    (hs' : s'.read .w64 a = v) (hflag : c.enabled s'.core = false) :
    At c a (taken held v (s.read .w64 a)) false (⟨i, r⟩ :: log) s' := by
  subst ht
  have hholds : (t.store v).holds = taken t.holds v (s.read .w64 a) := Tenure.holds_store hf
  have hword : s.read .w64 a = if t.holds then 1 else 0 := hs.holds ▸ hs.sealed.word
  obtain ⟨hspun', hv'⟩ := Tenure.store_of_word hv hf hword
  refine ⟨⟨?_, fun _ => hflag, ?_⟩, hstore ▸ hholds, hflag⟩
  · rw [hstore, hholds, hs']
    exact hv'
  · rw [hstore, hspun', hspun]
    exact hs.sealed.spun

/-- The word is looked at. -/
theorem seen_of_find {i : Instr} {r : i.Reply} (hs : At c a held false log s)
    (hfind : tenure a (⟨i, r⟩ :: log) = (tenure a log).find (s.read .w64 a))
    (hs' : s'.read .w64 a = s.read .w64 a) (hflag : c.enabled s'.core = false) :
    Seen c a held (s.read .w64 a) (⟨i, r⟩ :: log) s' := by
  refine ⟨⟨⟨?_, fun _ => hflag, ?_⟩, ?_, hflag⟩, ?_, hs'⟩
  · rw [hfind, hs', hs.sealed.word]
    rfl
  · rw [hfind]
    exact hs.sealed.spun
  · rw [hfind]
    exact hs.holds
  · rw [hfind]
    rfl

section

variable (hda : d ≠ a)

include hda

theorem access {i : Instr} (hi : i.target? = some a) : i.target? = some d → held = true := by
  intro hd
  exact absurd (Option.some.inj (hd.symm.trans hi)) hda

theorem swap (isa : SwapIsa) (hv : Proper v held) :
    (sections c a d).Leads (At c a held false) (perform (.swap isa .w64 a v))
      fun r => At c a (taken held v r) false := by
  refine instr_at fun log s refused hs => ?_
  have hs' :
      At c a (taken held v (s.read .w64 a)) false (⟨.swap isa .w64 a v, s.read .w64 a⟩ :: log)
        (s.write .w64 a v) :=
    at_of_store (t := (tenure a log).find (s.read .w64 a)) hs hv hs.holds rfl rfl
      (tenure_swap isa v _) (State.read_write_self _ _ _ _) hs.flag
  exact ⟨access hda rfl, hs'.sealed, hs'⟩

theorem write_zero :
    (sections c a d).Leads (At c a true false) (perform (.write .w64 a 0))
      fun _ => At c a false false := by
  refine instr_at fun log s refused hs => ?_
  have hs' : At c a false false (⟨.write .w64 a 0, ()⟩ :: log) (s.write .w64 a 0) := by
    refine ⟨⟨?_, fun _ => hs.flag, ?_⟩, ?_, hs.flag⟩
    · rw [tenure_write]
      exact State.read_write_self _ _ _ _
    · rw [tenure_write]
      exact hs.sealed.spun
    · rw [tenure_write]
      rfl
  exact ⟨access hda rfl, hs'.sealed, hs'⟩

theorem read :
    (sections c a d).Leads (At c a held false) (perform (.read .w64 a)) (Seen c a held) := by
  refine instr_at fun log s refused hs => ?_
  have hs' : Seen c a held (s.read .w64 a) (⟨.read .w64 a, s.read .w64 a⟩ :: log) s :=
    seen_of_find hs (tenure_read _) rfl hs.flag
  exact ⟨access hda rfl, hs'.1.sealed, hs'⟩

theorem write (hv : Proper v held) (r : Word .w64) :
    (sections c a d).Leads (Seen c a held r) (perform (.write .w64 a v))
      fun _ => At c a (taken held v r) false := by
  refine instr_seen fun log s refused hs => ?_
  obtain ⟨hs, hfound, rfl⟩ := hs
  have hs' :
      At c a (taken held v (s.read .w64 a)) false (⟨.write .w64 a v, ()⟩ :: log)
        (s.write .w64 a v) :=
    at_of_store hs hv hs.holds rfl hfound (tenure_write v ())
      (State.read_write_self _ _ _ _) hs.flag
  exact ⟨access hda rfl, hs'.sealed, hs'⟩

theorem loadExclusive (isa : PairIsa) :
    (sections c a d).Leads (At c a held false) (perform (.loadExclusive isa .w64 a))
      fun r => Seen c a held (Register.toWord r) := by
  refine instr_at fun log s refused hs => ?_
  have hword : Register.toWord (Word.toRegister (s.read .w64 a)) = s.read .w64 a :=
    Register.toWord_toRegister _
  have hflag :=
    (c.enabled_of_not_controls (i := .loadExclusive isa .w64 a) rfl refused s).trans hs.flag
  have hfind : tenure a (⟨.loadExclusive isa .w64 a, Word.toRegister (s.read .w64 a)⟩ :: log) =
      (tenure a log).find (Register.toWord (Word.toRegister (s.read .w64 a))) :=
    tenure_loadExclusive isa _
  rw [hword] at hfind
  have hs' : Seen c a held (s.read .w64 a)
      (⟨.loadExclusive isa .w64 a, Word.toRegister (s.read .w64 a)⟩ :: log)
      (s.reserve (some ⟨.w64, a⟩)) := seen_of_find hs hfind rfl hflag
  refine ⟨access hda rfl, hs'.1.sealed, ?_⟩
  change Seen c a held (Register.toWord (Word.toRegister (s.read .w64 a))) _ _
  rw [hword]
  exact hs'

theorem storeExclusive (isa : PairIsa) (hv : Proper v held) (r : Register .w64) :
    (sections c a d).Leads (Seen c a held (Register.toWord r))
      (perform (.storeExclusive isa .w64 a (Word.toRegister v)))
      fun ok log s => if ok then At c a (taken held v (Register.toWord r)) false log s
        else At c a held false log s := by
  refine instr_seen fun log s refused hs => ?_
  obtain ⟨hs, hfound, hword⟩ := hs
  have hflag := (c.enabled_of_not_controls (i := .storeExclusive isa .w64 a (Word.toRegister v)) rfl
    refused s).trans hs.flag
  by_cases hstores : s.core.monitor = some ⟨.w64, a⟩ ∧ refused = false
  · have hexec : (Instr.storeExclusive isa .w64 a (Word.toRegister v)).exec refused s =
        (true, (s.write .w64 a v).reserve none) := by
      simp only [Instr.exec, if_pos hstores, Register.toWord_toRegister]
    rw [hexec] at hflag ⊢
    rw [← hword]
    have hs' : At c a (taken held v (s.read .w64 a)) false
        (⟨.storeExclusive isa .w64 a (Word.toRegister v), true⟩ :: log)
        ((s.write .w64 a v).reserve none) :=
      at_of_store hs hv hs.holds rfl (hword ▸ hfound) (by rw [tenure_storeExclusive]; rfl)
        (State.read_write_self _ _ _ _) hflag
    exact ⟨access hda rfl, hs'.sealed, hs'⟩
  · have hexec : (Instr.storeExclusive isa .w64 a (Word.toRegister v)).exec refused s =
        (false, s.reserve none) := if_neg hstores
    rw [hexec] at hflag ⊢
    have hs' : At c a held false
        (⟨.storeExclusive isa .w64 a (Word.toRegister v), false⟩ :: log) (s.reserve none) := by
      have htenure : tenure a (⟨.storeExclusive isa .w64 a (Word.toRegister v), false⟩ :: log) =
          tenure a log := tenure_storeExclusive isa v false
      refine ⟨⟨?_, fun _ => hflag, ?_⟩, ?_, hflag⟩
      · rw [htenure]
        exact hs.sealed.word
      · rw [htenure]
        exact hs.sealed.spun
      · rw [htenure]
        exact hs.holds
    exact ⟨access hda rfl, hs'.sealed, hs'⟩

/-! ## The operations of a lock -/

theorem maskedSwap (hv : Proper v held) (isa : Isa) :
    (sections c a d).Leads (At c a held false) (Backend.maskedSwap c isa a v)
      fun r => At c a (taken held v r) false :=
  Leads.maskedSwap (M := fun r => At c a (taken held v r)) (Seen c a held)
    (commands.mono False.elim) (fun _ => commands.mono False.elim) still (fun _ => still)
    (fun h => absurd h Bool.false_ne_true) (read hda) (write hda hv)

theorem testSetLock {b : Backend} (hv : Proper v held) :
    (sections b.controller a d).Leads (At b.controller a held false) (b.testSetLock a v)
      fun r => At b.controller a (taken held v r) false := by
  refine .testSetLock (fun r => Seen b.controller a held (Register.toWord r)) still (fun _ => still)
    (swap hda · hv) (loadExclusive hda) (storeExclusive hda · hv) fun c base hb isa => ?_
  subst hb
  exact maskedSwap hda hv isa

theorem acquire {b : Backend} :
    (sections b.controller a d).Leads (At b.controller a false false) (RawLock.acquire ⟨a⟩ b)
      fun _ => At b.controller a true false := by
  have attempt : (sections b.controller a d).Leads (At b.controller a false false)
      (RawLock.tryAcquire ⟨a⟩ b) fun ok => At b.controller a ok false :=
    (testSetLock hda (.inl ⟨rfl, rfl⟩)).map
  refine .untilTrue (attempt.mono fun ok log s h => ?_)
  cases ok with
  | true => exact h
  | false => exact h

theorem release {b : Backend} :
    (sections b.controller a d).Leads (At b.controller a true false) (RawLock.release ⟨a⟩ b)
      fun _ => At b.controller a false false := by
  refine .privilegedStore still still (write_zero hda) fun c base hb isa => ?_
  subst hb
  exact maskedSwap hda (.inr ⟨rfl, rfl⟩) isa

end

/-! ## The operations of another lock -/

section

variable {a' : Addr} {b : Backend} (ha : a' ≠ a) (hd : d ≠ a')

include ha hd

/-- An instruction on the word of another lock. -/
theorem elsewhere {i : Instr} (hi : i.target? = some a') (hc : i.controls = false) :
    (sections c a d).Leads (At c a held flag) (perform i) fun _ => At c a held flag := by
  refine other hc ?_ ?_
  · rw [hi]
    exact fun h => ha (Option.some.inj h)
  · rw [hi]
    exact fun h => absurd (Option.some.inj h).symm hd

theorem maskedSwap_elsewhere (isa : Isa) :
    (sections c a d).Leads (At c a held false) (Backend.maskedSwap c isa a' v)
      fun _ => At c a held false :=
  Leads.maskedSwap (M := fun _ => At c a held) (fun _ => At c a held false)
    (commands.mono False.elim) (fun _ => commands.mono False.elim) still (fun _ => still)
    (fun h => absurd h Bool.false_ne_true)
    (elsewhere ha hd rfl rfl) fun _ => elsewhere ha hd rfl rfl

theorem acquire_elsewhere :
    (sections b.controller a d).Leads (At b.controller a held false) (RawLock.acquire ⟨a'⟩ b)
      fun _ => At b.controller a held false := by
  have swap : (sections b.controller a d).Leads (At b.controller a held false) (b.testSetLock a' 1)
      fun _ => At b.controller a held false := by
    refine .testSetLock (fun _ => At b.controller a held false) still (fun _ => still)
      (fun _ => elsewhere ha hd rfl rfl) (fun _ => elsewhere ha hd rfl rfl) (fun _ _ => ?_)
      fun c base hb isa => ?_
    · refine (elsewhere ha hd rfl rfl).mono fun ok log s h => ?_
      split
      · exact h
      · exact h
    · subst hb
      exact maskedSwap_elsewhere ha hd isa
  have attempt : (sections b.controller a d).Leads (At b.controller a held false)
      (RawLock.tryAcquire ⟨a'⟩ b) fun _ => At b.controller a held false :=
    swap.bind fun _ => .ret fun _ _ h => h
  refine .untilTrue (attempt.mono fun ok log s h => ?_)
  split
  · exact h
  · exact h

theorem release_elsewhere :
    (sections b.controller a d).Leads (At b.controller a held false) (RawLock.release ⟨a'⟩ b)
      fun _ => At b.controller a held false := by
  refine .privilegedStore still still (elsewhere ha hd rfl rfl) fun c base hb isa => ?_
  subst hb
  exact maskedSwap_elsewhere ha hd isa

end

/-! ## Nested sections -/

section

variable {ι : Type} {t : ι → Scalar} [DecidableEq ι] {lock : (i : ι) → SpinLock (t i)} {b : Backend}
  (hb : ∀ i, (lock i).backend = b)
  (hwords : ∀ i j, (lock i).lock.word = (lock j).lock.word → i = j)
  (hdata : ∀ i j, (lock i).data ≠ (lock j).lock.word)

/-- Where a context stands with the lock `j`, going by the guards that it has. -/
def Under (c : Controller) (a : Addr) (j : ι) (flag : Bool) (held : List (ι × Guard))
    (log : List Executed) (s : State) : Prop :=
  Saved flag held ∧ At c a (guards j held) (flagUnder flag held) log s

include hb hwords hdata

theorem acquireMasked (i j : ι) {held : List (ι × Guard)} (hi : ∀ e ∈ held, e.1 ≠ i) :
    (sections b.controller (lock j).lock.word (lock j).data).Leads
      (Under b.controller (lock j).lock.word j flag held) (lock i).acquireMasked
      fun g => Under b.controller (lock j).lock.word j flag ((i, g) :: held) := by
  refine .given fun hsaved => ?_
  rw [SpinLock.acquireMasked, hb i]
  refine commands.disable.bind fun wasEnabled => .given fun hwas => ?_
  subst hwas
  have hsaved' : Saved flag ((i, (⟨some (flagUnder flag held)⟩ : Guard)) :: held) :=
    ⟨rfl, hi, hsaved⟩
  by_cases hij : i = j
  · subst hij
    rw [guards_eq_false hi]
    refine (acquire (hdata i i)).bind fun _ => .ret fun log s hs => ⟨hsaved', ?_⟩
    rw [guards_cons_self]
    exact hs
  · have hne : (lock i).lock.word ≠ (lock j).lock.word := fun h => hij (hwords i j h)
    refine (acquire_elsewhere hne (hdata j i)).bind fun _ => .ret fun log s hs => ⟨hsaved', ?_⟩
    rw [guards_cons_of_ne hij]
    exact hs

theorem unlock (i j : ι) (g : Guard) (held : List (ι × Guard)) :
    (sections b.controller (lock j).lock.word (lock j).data).Leads
      (Under b.controller (lock j).lock.word j flag ((i, g) :: held)) ((lock i).unlock g)
      fun _ => Under b.controller (lock j).lock.word j flag held := by
  refine .given fun ⟨hg, hi, hsaved⟩ => ?_
  obtain ⟨restore⟩ := g
  change restore = _ at hg
  subst hg
  have free : (sections b.controller (lock j).lock.word (lock j).data).Leads
      (At b.controller (lock j).lock.word
        (guards j ((i, ⟨some (flagUnder flag held)⟩) :: held)) false)
      ((lock i).lock.release b) fun _ =>
        At b.controller (lock j).lock.word (guards j held) false := by
    by_cases hij : i = j
    · subst hij
      rw [guards_cons_self, guards_eq_false hi]
      exact release (hdata i i)
    · have hne : (lock i).lock.word ≠ (lock j).lock.word := fun h => hij (hwords i j h)
      rw [guards_cons_of_ne hij]
      exact release_elsewhere hne (hdata j i)
  rw [SpinLock.unlock, hb i]
  refine free.bind fun _ => ?_
  refine (commands.enableIf (flagUnder flag held) guards_of_flagUnder).mono fun _ log s hs => ?_
  exact ⟨hsaved, hs⟩

omit hb hwords hdata in
/-- What keeps the lock sealed whether interrupts are enabled or masked does so with interrupts
masked around it. -/
theorem masking {α : Type} {c : Controller} {held : List (ι × Guard)} {p : Prog α} {j : ι}
    (h : ∀ flag, (sections c a d).Leads (Under c a j flag held) p fun _ => Under c a j flag held)
    (flag : Bool) :
    (sections c a d).Leads (Under c a j flag held) (c.masking p) fun _ =>
      Under c a j flag held := by
  refine .given fun hsaved => ?_
  refine commands.disable.bind fun wasEnabled => .given fun hwas => ?_
  subst hwas
  -- inside, interrupts are masked already where a context has no guards
  obtain ⟨inner, hinner, hmasked⟩ : ∃ inner, Saved inner held ∧ flagUnder inner held = false := by
    cases held with
    | nil => exact ⟨false, trivial, rfl⟩
    | cons e held => exact ⟨flag, hsaved, rfl⟩
  have body : (sections c a d).Leads (At c a (guards j held) false) p
      fun _ => At c a (guards j held) false := by
    refine ((h inner).weaken fun log s hs => ⟨hinner, ?_⟩).mono fun _ log s hs => ?_
    · rw [hmasked]
      exact hs
    · rw [← hmasked]
      exact hs.2
  refine body.bind fun x => (commands.enableIf _ guards_of_flagUnder).bind fun _ => ?_
  exact .ret fun log s hs => ⟨hsaved, hs⟩

/-- **A program that nests its critical sections keeps every lock sealed.** -/
theorem of_nests {α : Type} {held : List (ι × Guard)} {p : Prog α} {k : α → List (ι × Guard)}
    (h : Nests lock b held p k) (j : ι) (flag : Bool) :
    (sections b.controller (lock j).lock.word (lock j).data).Leads
      (Under b.controller (lock j).lock.word j flag held) p
      fun x => Under b.controller (lock j).lock.word j flag (k x) := by
  induction h generalizing flag with
  | lock i hi => exact acquireMasked hb hwords hdata i j hi
  | unlock i g held => exact unlock hb hwords hdata i j g held
  | @masking α held p h ih => exact masking (fun flag => ih flag) flag
  | @other α held p h =>
    refine .given fun hsaved => ?_
    refine (Leads.all (fun i hi => ?_) h).mono fun _ log s hs => ⟨hsaved, hs⟩
    refine other hi.1 (hi.2 j).1 fun hd => ?_
    exact guards_iff.mpr ((hi.2 j).2 hd)
  | ret x => exact .ret fun _ _ hs => hs
  | bind _ _ ihfirst ihnext => exact (ihfirst flag).bind fun a => ihnext a flag
  | @iterate σ β body inv after _ x ih =>
    refine .iterate (I := fun x => Under b.controller (lock j).lock.word j flag (inv x))
      (fun x => ?_) x
    refine (ih x flag).mono fun r log s h => ?_
    cases r with
    | inl x => exact h
    | inr b => exact h

end

end Sections

end Atomicity.OneCore
