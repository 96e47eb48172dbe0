import Atomicity.Proofs.Interference.LockWord

/-!
# Waiting for a lock

`RawLock.acquire` swaps the word of a lock for one until it finds zero. Here it runs under any
finite schedule of foreign writes, on any backend, from any word.

An `Attempt` is one swap from begin to end: it has one instant, at which it finds a word and puts
one in its place with nothing in between, it stores nothing else, and it changes nothing but memory
and the exclusive monitor. `Attempts` is a history of them, with the words that they have found. An
attempt that finds zero is the last one; after every other there is one more (`Attempts.next`), so
there are as many as one likes, or as many as it takes (`Attempts.exist`).

**A lock is taken by an attempt of one's own, or not at all** (`RawLock.acquired_by_taking`): what a
context waits for is an instant of its own that finds the word zero. A zero that is written and
overwritten between two of its instants is as if it had never been there.
-/

namespace Atomicity

namespace RawLock

open Prog

/-- From `c`, about to try, to `d`: one attempt of `acquire`, and what happens to memory
meanwhile. -/
structure Attempt (x : Interference) (b : Backend) (l : RawLock) (c : Solo Unit) (found : Word .w64)
    (tr : List Access) (d : Solo Unit) : Prop where
  begins : c.rest = l.acquire b
  run : ∃ n, Solo.Steps x n c tr d
  instant : SetAt c.state.shared.memory tr l found
  alike : c.state.Alike d.state
  ends : d.rest = if found = 0 then .ret () else l.acquire b

/-- The words that the attempts of `acquire` have found from `c` to `d`, first attempt first. -/
inductive Attempts (x : Interference) (b : Backend) (l : RawLock) (c : Solo Unit) :
    List (Word .w64) → List Access → Solo Unit → Prop
  | none : Attempts x b l c [] [] c
  | more {founds : List (Word .w64)} {found : Word .w64} {tr tr' : List Access} {d e : Solo Unit}
      (before : Attempts x b l c founds tr d) (attempt : Attempt x b l d found tr' e) :
      Attempts x b l c (founds ++ [found]) (tr ++ tr') e

variable {x : Interference} {b : Backend} {l : RawLock} {c d : Solo Unit}
  {founds : List (Word .w64)} {found : Word .w64} {tr : List Access} {m : Memory}

/-! ## One attempt -/

/-- One round of waiting is one attempt, and all the others if that has failed. -/
theorem unroll_untilTrue (attempt : Prog Bool) : unroll
    (fun _ : Unit => attempt.bind fun ok => .ret (if ok then .inr () else .inl ())) () Prog.ret =
      attempt.bind fun ok => if ok then .ret () else untilTrue attempt := by
  refine (Prog.bind_assoc attempt _ _).trans (congrArg attempt.bind (funext fun ok => ?_))
  cases ok with
  | true => rfl
  | false => rfl

/-- **Every attempt comes to its end.** -/
theorem exists_attempt (hx : x.budget = none) (hc : c.rest = l.acquire b)
    (hs : Reachable b c.state.core.masked c.state) :
    ∃ found tr d, Attempt x b l c found tr d ∧ Reachable b d.state.core.masked d.state := by
  have hopen := Solo.Steps.loop (x := x) hc
  obtain ⟨n, tr, ok, d, -, hsteps, hd, -, ⟨found, rfl, hinstant⟩, halike, hs'⟩ :=
    tryAcquire_passes hx b l hs _ { c with rest := _ } (unroll_untilTrue (l.tryAcquire b)) rfl
  have hall := hopen.trans hsteps
  rw [List.nil_append] at hall
  refine ⟨found, tr, d, ⟨hc, ⟨_, hall⟩, hinstant, halike, ?_⟩, hs'⟩
  simp [hd, acquire]

theorem SetAt.ne_nil (h : SetAt m tr l found) : tr ≠ [] := by
  obtain ⟨before, after, rfl, -, -⟩ := h
  simp

/-! ## The instants of a trace -/

/-- Where two traces meet, two accesses that follow each other are in one of them, or the second
trace begins with the second access. -/
theorem infix_append {u v : Access} {tr tr' : List Access} (h : [u, v] <:+: tr ++ tr') :
    [u, v] <:+: tr ∨ [u, v] <:+: tr' ∨ tr'.head? = some v := by
  induction tr with
  | nil => exact .inr (.inl h)
  | cons e tr ih =>
    rcases List.infix_cons_iff.mp h with hprefix | hlater
    · obtain ⟨rfl, hv⟩ := List.cons_prefix_cons.mp hprefix
      cases tr with
      | nil =>
        obtain ⟨rest, hrest⟩ := hv
        exact .inr (.inr (congrArg List.head? hrest.symm))
      | cons e' tr =>
        obtain ⟨rfl, -⟩ := List.cons_prefix_cons.mp hv
        exact .inl ⟨[], tr, rfl⟩
    · rcases ih hlater with hin | hin
      · exact .inl (List.infix_cons_iff.mpr (.inr hin))
      · exact .inr hin

/-- What an attempt has found is what is loaded right before its store. -/
theorem SetAt.unique {u v : Access} (h : SetAt m tr l found) (huv : [u, v] <:+: tr)
    (hv : v.isStored = true) : u = .loaded .w64 l.word found := by
  obtain ⟨before, after, rfl, -, hquiet⟩ := h
  have hnot : ∀ {e}, e ∈ before ++ after → e ≠ v := fun he hev => by
    rw [← hev, hquiet _ he] at hv
    cases hv
  have hlast : ∀ {l : List Access}, [u, v] <:+: l → v ∈ l := fun h => h.subset (by simp)
  rcases infix_append huv with hin | hin | hin
  · exact absurd rfl (hnot (List.mem_append_left _ (hlast hin)))
  · rcases List.infix_cons_iff.mp hin with hprefix | hin
    · exact (List.cons_prefix_cons.mp hprefix).1
    · rcases List.infix_cons_iff.mp hin with hprefix | hin
      · obtain ⟨-, rest, hrest⟩ := List.cons_prefix_cons.mp hprefix
        have hmem : v ∈ after := hrest ▸ List.mem_cons_self
        exact absurd rfl (hnot (List.mem_append_right _ hmem))
      · exact absurd rfl (hnot (List.mem_append_right _ (hlast hin)))
  · rw [← Option.some.inj hin] at hv
    cases hv

/-- An attempt does not begin with its store. -/
theorem SetAt.head_not_isStored {e : Access} (h : SetAt m tr l found) (he : tr.head? = some e) :
    e.isStored = false := by
  obtain ⟨before, after, rfl, -, hquiet⟩ := h
  cases before with
  | nil => exact Option.some.inj he ▸ rfl
  | cons e' before =>
    obtain rfl := Option.some.inj he
    exact hquiet _ (by simp)

/-! ## A history of attempts -/

namespace Attempts

/-- A history takes steps, at least one for each attempt. -/
theorem steps (h : Attempts x b l c founds tr d) :
    ∃ n, founds.length ≤ n ∧ Solo.Steps x n c tr d := by
  induction h with
  | none => exact ⟨0, Nat.le_refl 0, rfl, rfl⟩
  | more before attempt ih =>
    obtain ⟨n, hn, hsteps⟩ := ih
    obtain ⟨k, hk⟩ := attempt.run
    have hpos : k ≠ 0 := by
      rintro rfl
      exact attempt.instant.ne_nil hk.trace_eq.symm
    refine ⟨n + k, ?_, hsteps.trans hk⟩
    rw [List.length_append, List.length_singleton]
    omega

/-- Where no attempt has found zero there is another to come. -/
theorem rest (h : Attempts x b l c founds tr d) (hc : c.rest = l.acquire b) (hfounds : 0 ∉ founds) :
    d.rest = l.acquire b := by
  cases h with
  | none => exact hc
  | @more founds found _ _ _ _ before attempt =>
    have hfound : found ≠ 0 :=
      fun h => hfounds (List.mem_append_right _ (List.mem_singleton.mpr h.symm))
    rw [attempt.ends, if_neg hfound]

theorem alike (h : Attempts x b l c founds tr d) : c.state.Alike d.state := by
  induction h with
  | none => exact ⟨rfl, rfl, rfl, rfl⟩
  | more before attempt ih =>
    have h := attempt.alike
    exact ⟨h.core.trans ih.core, h.owned.trans ih.owned, h.once.trans ih.once, h.log.trans ih.log⟩

/-- Zero is found and replaced in the trace of a history only if an attempt has found it. -/
theorem mem_of_replaced (h : Attempts x b l c founds tr d)
    (hpair : [.loaded .w64 l.word 0, .stored .w64 l.word 1] <:+: tr) : 0 ∈ founds := by
  induction h with
  | none => simp at hpair
  | @more founds found tr tr' d e before attempt ih =>
    rcases infix_append hpair with hin | hin | hin
    · exact List.mem_append_left _ (ih hin)
    · have hfound := attempt.instant.unique hin rfl
      obtain rfl : 0 = found := by simpa using hfound
      exact List.mem_append_right _ (List.mem_singleton.mpr rfl)
    · exact absurd (attempt.instant.head_not_isStored hin) Bool.noConfusion

/-- Where an attempt has found zero, the lock is taken and the context has returned. -/
theorem result (h : Attempts x b l c (founds ++ [0]) tr d) : d.result? = some () := by
  generalize hall : founds ++ [0] = all at h
  cases h with
  | none => simp at hall
  | @more founds' found _ _ _ _ before attempt =>
    obtain ⟨-, hfound⟩ := List.append_inj' hall rfl
    obtain rfl : 0 = found := List.singleton_inj.mp hfound
    rw [Solo.result?, attempt.ends]
    rfl

/-- The instant at which a lock has been taken is in the trace. -/
theorem infix_trace (h : Attempts x b l c (founds ++ [0]) tr d) :
    [.loaded .w64 l.word 0, .stored .w64 l.word 1] <:+: tr := by
  generalize hall : founds ++ [0] = all at h
  cases h with
  | none => simp at hall
  | @more founds' found tr tr' _ _ before attempt =>
    obtain ⟨-, hfound⟩ := List.append_inj' hall rfl
    obtain rfl : 0 = found := List.singleton_inj.mp hfound
    obtain ⟨first, later, rfl, -, -⟩ := attempt.instant
    exact ⟨tr ++ first, later, by simp⟩

/-- **There are as many attempts as one likes, or as many as it takes.** -/
theorem exist (hx : x.budget = Option.none) (hc : c.rest = l.acquire b)
    (hs : Reachable b c.state.core.masked c.state) (n : Nat) :
    (∃ founds tr d, Attempts x b l c founds tr d ∧ founds.length = n ∧ 0 ∉ founds ∧
        d.rest = l.acquire b ∧
        Reachable b d.state.core.masked d.state) ∨
      ∃ earlier tr d, Attempts x b l c (earlier ++ [0]) tr d ∧ earlier.length < n ∧ 0 ∉ earlier ∧
        d.result? = some () := by
  induction n with
  | zero => exact .inl ⟨[], [], c, .none, rfl, List.not_mem_nil, hc, hs⟩
  | succ n ih =>
    rcases ih with ⟨founds, tr, d, h, hlength, hzero, hd, hs'⟩ | ⟨earlier, tr, d, h, hlength, hrest⟩
    · obtain ⟨found, tr', e, hattempt, hs''⟩ := exists_attempt hx hd hs'
      have hmore := h.more hattempt
      by_cases hfound : found = 0
      · subst hfound
        exact .inr ⟨founds, tr ++ tr', e, hmore, by omega, hzero, hmore.result⟩
      · have hnone : 0 ∉ founds ++ [found] := by
          intro hmem
          rcases List.mem_append.mp hmem with hmem | hmem
          · exact hzero hmem
          · exact hfound (List.mem_singleton.mp hmem).symm
        exact .inl
          ⟨founds ++ [found], tr ++ tr', e, hmore, by simp [hlength], hnone,
            hmore.rest hc hnone, hs''⟩
    · exact .inr ⟨earlier, tr, d, h, by omega, hrest⟩

section

variable (hx : x.budget = Option.none) (hc : c.rest = l.acquire b)
  (hs : Reachable b c.state.core.masked c.state) {k : Nat}

include hx hc hs

/-- Who has returned has made attempts, of which the last has found zero. -/
theorem of_returned (hk : (c.run x k).result? = some ()) :
    ∃ earlier tr, Attempts x b l c (earlier ++ [0]) tr (c.run x k) ∧ 0 ∉ earlier := by
  have hrun : Solo.Steps x k c (c.trace x k) (c.run x k) := ⟨rfl, rfl⟩
  rcases exist hx hc hs (k + 1) with ⟨founds, tr, d, h, hlength, -, hd, -⟩ |
    ⟨earlier, tr, d, h, -, hzero, hd⟩
  · -- more attempts than steps have been made, and there is another to come
    obtain ⟨n, hn, hsteps⟩ := h.steps
    have hstay := (hrun.extend (n := n) (by omega) hk).run_eq.symm.trans hsteps.run_eq
    rw [hstay, Solo.result?, hd] at hk
    cases hk
  · obtain ⟨n, -, hsteps⟩ := h.steps
    obtain ⟨rfl, -⟩ := hsteps.unique hrun (Solo.rest_of_result hd) (Solo.rest_of_result hk)
    exact ⟨earlier, tr, h, hzero⟩

/-- Where zero is found and replaced, `acquire` returns. -/
theorem returns (hpair : [.loaded .w64 l.word 0, .stored .w64 l.word 1] <:+: c.trace x k) :
    ∃ n, (c.run x n).result? = some () := by
  rcases exist hx hc hs (k + 1) with ⟨founds, tr, d, h, hlength, hzero, -⟩ |
    ⟨earlier, tr, d, h, -, -, hd⟩
  · obtain ⟨n, hn, hsteps⟩ := h.steps
    obtain ⟨j, rfl⟩ := Nat.exists_eq_add_of_le (show k ≤ n by omega)
    have hprefix : c.trace x k <+: tr := by
      rw [← hsteps.trace_eq, Solo.trace_add]
      exact List.prefix_append _ _
    exact absurd (h.mem_of_replaced (hpair.trans hprefix.isInfix)) hzero
  · obtain ⟨n, -, hsteps⟩ := h.steps
    exact ⟨n, hsteps.run_eq ▸ hd⟩

end

end Attempts

/-! ## The word -/

/-- Some foreign write of the schedule stores zero to the word of a lock. -/
def FreedBy (x : Interference) (l : RawLock) : Prop :=
  x.width = .w64 ∧ x.addr = l.word ∧ ∃ e ∈ x.pokes ++ x.updatePokes, e.2 = 0

/-- What happens to memory while `acquire` runs: foreign writes of the schedule, and instructions
that store nothing but ones to the word. -/
theorem mem_trace (hc : c.rest = l.acquire b) {n : Nat} {e : Access} (he : e ∈ c.trace x n) :
    e ∈ x.writes ∨ ∃ i r, Instr.OnWord l.word 1 i ∧ e ∈ i.accesses r :=
  Solo.mem_trace n (hc ▸ l.acquire_onWord b) he

/-- A foreign write of the schedule stores no zero to the word. -/
theorem apply_foreign (hfree : ¬ FreedBy x l) {e : Access} (he : e ∈ x.writes) {m : Memory}
    (hm : m.read .w64 l.word ≠ 0) : (e.apply m).read .w64 l.word ≠ 0 := by
  obtain ⟨width, addr, pokes, updatePokes, rejects, budget⟩ := x
  obtain ⟨entry, hentry, rfl⟩ := List.mem_map.mp he
  by_cases hwidth : width = .w64
  · subst hwidth
    by_cases haddr : addr = l.word
    · subst haddr
      have hne : entry.2 ≠ 0 := fun h => hfree ⟨rfl, rfl, entry, hentry, h⟩
      simpa [Access.apply] using hne
    · rwa [Access.apply, Memory.read_write_of_ne _ _ haddr]
  · rwa [Access.apply, Memory.read_write_of_width_ne _ _ _ _ hwidth]

theorem one_ne_zero : (1 : Word .w64) ≠ 0 := by decide

/-- Where nobody frees it, the word of a lock that is held is not zero at any instant. -/
theorem word_ne_zero (hfree : ¬ FreedBy x l) {tr : List Access} {m : Memory}
    (htr : ∀ e ∈ tr, e ∈ x.writes ∨ ∃ i r, Instr.OnWord l.word 1 i ∧ e ∈ i.accesses r)
    (hm : m.read .w64 l.word ≠ 0) : (tr.foldl Access.apply m).read .w64 l.word ≠ 0 := by
  induction tr generalizing m with
  | nil => exact hm
  | cons e tr ih =>
    refine ih (fun e' he' => htr e' (List.mem_cons_of_mem _ he')) ?_
    rcases htr e List.mem_cons_self with he | ⟨i, r, hi, he⟩
    · exact apply_foreign hfree he hm
    · rcases hi.apply he m with h | h
      · rwa [h]
      · rw [h, Memory.read_write_self]
        exact one_ne_zero

/-- Once it has been made one, the word is one until a foreign write comes. -/
theorem word_eq_one {tr : List Access} {m : Memory}
    (htr : ∀ e ∈ tr, e ∈ x.writes ∨ ∃ i r, Instr.OnWord l.word 1 i ∧ e ∈ i.accesses r)
    (hquiet : ∀ e ∈ tr, e.isForeign = false) (hm : m.read .w64 l.word = 1) :
    (tr.foldl Access.apply m).read .w64 l.word = 1 := by
  induction tr generalizing m with
  | nil => exact hm
  | cons e tr ih =>
    refine ih (fun e' he' => htr e' (List.mem_cons_of_mem _ he'))
      (fun e' he' => hquiet e' (List.mem_cons_of_mem _ he')) ?_
    rcases htr e List.mem_cons_self with he | ⟨i, r, hi, he⟩
    · have hforeign := hquiet e List.mem_cons_self
      rw [x.isForeign_of_mem_writes he] at hforeign
      cases hforeign
    · rcases hi.apply he m with h | h
      · rwa [h]
      · rw [h, Memory.read_write_self]

/-- Where nobody frees the lock, no attempt finds zero. -/
theorem Attempts.not_zero (hc : c.rest = l.acquire b) (hfree : ¬ FreedBy x l)
    (hword : c.state.read .w64 l.word ≠ 0) (h : Attempts x b l c founds tr d) : 0 ∉ founds := by
  induction h with
  | none => exact List.not_mem_nil
  | @more founds found tr tr' d e before attempt ih =>
    intro hmem
    rcases List.mem_append.mp hmem with hmem | hmem
    · exact ih hmem
    · obtain rfl : 0 = found := List.mem_singleton.mp hmem
      obtain ⟨n, -, hsteps⟩ := before.steps
      obtain ⟨k, hk⟩ := attempt.run
      obtain ⟨first, later, htr, hfound, -⟩ := attempt.instant
      rw [← hsteps.replay, ← List.foldl_append] at hfound
      have hwhole := (hsteps.trans hk).trace_eq
      have hmem : ∀ e ∈ tr ++ first, e ∈ x.writes ∨ ∃ i r, Instr.OnWord l.word 1 i ∧
          e ∈ i.accesses r := by
        intro e he
        refine mem_trace hc (n := n + k) ?_
        rw [hwhole, htr, ← List.append_assoc]
        exact List.mem_append_left _ he
      exact word_ne_zero hfree hmem hword hfound

/-! ## Every run -/

/-- **A lock is taken by an attempt of one's own, or not at all.** On any backend, from any word and
under any finite schedule of foreign writes, `acquire` makes attempt after attempt, until one has
found zero, and that one returns (1). It returns just if it comes to an instant at which zero is
found and replaced (2), and where it has returned, the last attempt has found zero and every one
before it another word (3). Each has put one in the place of what it has found, and changed nothing
else. If the word is not zero, and nobody writes zero there, there is no end to the attempts (4).
Once one has been stored, the word is one unless a foreign write has come since (5). And if
interrupts are masked at first, they are at every instant (6). -/
theorem acquired_by_taking (x : Interference) (hx : x.budget = none) (b : Backend)
    (l : RawLock) (s : State)
    (hcore : b.strategy = .globalLock → b.controller = .hosted → s.core.masked = false →
      s.shared.coreOwned = false) :
    let c := Solo.start (l.acquire b) s
    (∀ n, (∃ founds tr d, Attempts x b l c founds tr d ∧ founds.length = n ∧ 0 ∉ founds ∧
        d.rest = l.acquire b) ∨
      ∃ earlier tr d, Attempts x b l c (earlier ++ [0]) tr d ∧ earlier.length < n ∧ 0 ∉ earlier ∧
        d.result? = some ()) ∧
    ((∃ k, (c.run x k).result? = some ()) ↔
      ∃ k, [.loaded .w64 l.word 0, .stored .w64 l.word 1] <:+: c.trace x k) ∧
    (∀ k, (c.run x k).result? = some () →
      ∃ earlier tr, Attempts x b l c (earlier ++ [0]) tr (c.run x k) ∧ 0 ∉ earlier) ∧
    (s.read .w64 l.word ≠ 0 → ¬ FreedBy x l → ∀ n, ∃ founds tr d, Attempts x b l c founds tr d ∧
      founds.length = n ∧ 0 ∉ founds ∧ d.rest = l.acquire b) ∧
    (∀ k before after, c.trace x k = before ++ .stored .w64 l.word 1 :: after →
      (∀ e ∈ after, e.isForeign = false) → (c.run x k).state.read .w64 l.word = 1) ∧
    (b.controller.enabled s.core = false →
      ∀ k, b.controller.enabled (c.run x k).state.core = false) := by
  intro c
  have hc : c.rest = l.acquire b := rfl
  have hs : Reachable b c.state.core.masked c.state := fun hb hh => ⟨rfl, hcore hb hh⟩
  refine ⟨fun n => ?_, ⟨?_, ?_⟩, fun k hk => Attempts.of_returned hx hc hs hk,
    fun hword hfree n => ?_, fun k before after htr hquiet => ?_, fun hmasked k => ?_⟩
  · rcases Attempts.exist hx hc hs n with ⟨founds, tr, d, h, hlength, hzero, hd, -⟩ | hreturned
    · exact .inl ⟨founds, tr, d, h, hlength, hzero, hd⟩
    · exact .inr hreturned
  · rintro ⟨k, hk⟩
    obtain ⟨earlier, tr, h, -⟩ := Attempts.of_returned hx hc hs hk
    obtain ⟨n, -, hsteps⟩ := h.steps
    exact ⟨n, hsteps.trace_eq ▸ h.infix_trace⟩
  · rintro ⟨k, hk⟩
    exact Attempts.returns hx hc hs hk
  · rcases Attempts.exist hx hc hs n with ⟨founds, tr, d, h, hlength, hzero, hd, -⟩ |
      ⟨earlier, tr, d, h, -⟩
    · exact ⟨founds, tr, d, h, hlength, hzero, hd⟩
    · exact absurd (by simp) (h.not_zero hc hfree hword)
  · have hmem : ∀ e ∈ after, e ∈ x.writes ∨ ∃ i r, Instr.OnWord l.word 1 i ∧ e ∈ i.accesses r := by
      intro e he
      refine mem_trace hc (n := k) ?_
      rw [htr]
      exact List.mem_append_right _ (List.mem_cons_of_mem _ he)
    have hreplay := c.trace_replay x k
    rw [htr, List.foldl_append, List.foldl_cons] at hreplay
    rw [State.read, ← hreplay]
    exact word_eq_one hmem hquiet (Memory.read_write_self ..)
  · have hflag : (InterruptState.preserving b.controller s.core).Leads
        (InterruptState.Flag b.controller s.core (b.controller.enabled s.core)) (l.acquire b)
        fun _ => InterruptState.Flag b.controller s.core (b.controller.enabled s.core) :=
      (Operates.untilTrue (Operates.tryAcquire l)).balanced.flag id
    exact InterruptState.masked hflag (.start _ s) x k id hmasked

/-- Zero is written to the word of a lock right after a load-exclusive, and nine after the next one;
and zero again later. -/
def freedTwice : Interference :=
  { width := .w64, addr := .cell 0, pokes := [(2, 0), (3, 9), (7, 0)] }

/-- The first zero has been overwritten before a store-exclusive found it, and is missed. The lock
is taken by a later attempt, at the second zero. -/
theorem acquired_at_second_zero :
    ((Solo.start (acquire ⟨.cell 0⟩ (.pair .aarch64))
      ((State.start true true).write .w64 (.cell 0) 7)).run freedTwice 14).result? = none ∧
    ∃ earlier tr, Attempts freedTwice (.pair .aarch64) ⟨.cell 0⟩
      (Solo.start (acquire ⟨.cell 0⟩ (.pair .aarch64))
        ((State.start true true).write .w64 (.cell 0) 7))
      (earlier ++ [0]) tr
      ((Solo.start (acquire ⟨.cell 0⟩ (.pair .aarch64))
        ((State.start true true).write .w64 (.cell 0) 7)).run freedTwice 15) ∧ 0 ∉ earlier :=
  ⟨by decide +kernel, (acquired_by_taking freedTwice rfl (.pair .aarch64) ⟨.cell 0⟩
    ((State.start true true).write .w64 (.cell 0) 7) Strategy.noConfusion).2.2.1 15
    (by decide +kernel)⟩

end RawLock

end Atomicity
