import Atomicity.Proofs.ManyCores.Modification
import Atomicity.Proofs.OneCore.Preemption
import Atomicity.Session
import Mathlib.Data.List.Induction

/-!
# One winner per clearing

Contexts that share a flag set it, clear it and look at it. Setting and clearing are the operations
on the word of a lock, and looking is an ordinary load, so they may go different ways through a
backend; what makes them agree is that each is indivisible (`FlagOp.indivisible`).

What a flag is for is said of the order of calls alone, without a word of memory. `Raised calls`
says that a test-and-set has been made since the last clearing, or since the beginning. In an order
that is **faithful** (`Faithful`) a look answers whether the flag is raised, and so does a
test-and-set; so it answers `false` if and only if it is the first one since the last clearing.

- `Faithful.one_winner`: in a faithful order, between two clearings exactly one test-and-set answers
  `false`, if there is one at all.
- `faithful_of_serially`: calls done one after another, from a word that is zero, are in a faithful
  order, and the word is one where the flag is raised and zero where it is not.

**`one_winner_per_clearing`** says that of all runs: any interleaving on the backends with
instructions or exclusive pairs, and preemption by handlers on the two that mask interrupts. That
the word is zero or one holds at every instant, because every beginning of a run is a run.
-/

namespace Atomicity

/-- The type of what a call on a flag answers. -/
abbrev FlagOp.Result : FlagOp → Type
  | testAndSet => Bool
  | clear => Unit
  | isSet => Bool

/-- A flag, shared by contexts that may make any calls on it. -/
def Flag.service (f : Flag) : Service where
  Request := FlagOp
  Answer := FlagOp.Result
  prog
    | .testAndSet => f.testAndSet
    | .clear => f.clear
    | .isSet => f.isSet

/-- What the calls on a flag do, each all at once. -/
def Flag.effects (f : Flag) : f.service.Effects
  | .testAndSet => fun m => (m.read .w64 f.word != 0, m.write .w64 f.word 1)
  | .clear => fun m => ((), m.write .w64 f.word 0)
  | .isSet => fun m => (m.read .w64 f.word != 0, m)

/-- **The calls on a flag are indivisible** where the operations on its word are. -/
theorem FlagOp.indivisible {Γ : Type} {W : World Γ} {f : Flag} (h : W.Provides f.backend)
    (hf : f.word ≠ .globalLock) (o : FlagOp) : W.Indivisible (f.service.prog o) (f.effects o) := by
  cases o with
  | testAndSet => exact World.CommitsOn.map (· != 0) (h.testSetLock hf 1)
  | clear => exact h.privilegedStore hf 0
  | isSet => exact World.CommitsOn.map (· != 0) (h.load hf .w64)

namespace Flag

/-! ## What is expected of a flag -/

/-- A test-and-set has been made since the last clearing, or since the beginning. -/
def Raised (calls : List FlagOp) : Prop :=
  ∃ earlier later, calls = earlier ++ .testAndSet :: later ∧ .clear ∉ later

theorem not_raised_nil : ¬ Raised [] := by
  rintro ⟨earlier, later, h, -⟩
  simp at h

theorem raised_testAndSet (calls : List FlagOp) : Raised (calls ++ [.testAndSet]) :=
  ⟨calls, [], rfl, List.not_mem_nil⟩

theorem not_raised_clear (calls : List FlagOp) : ¬ Raised (calls ++ [.clear]) := by
  rintro ⟨earlier, later, h, hlater⟩
  rcases later.eq_nil_or_concat with rfl | ⟨later, o, rfl⟩
  · have ho := List.append_inj_right' h rfl
    cases ho
  · rw [List.concat_eq_append] at h hlater
    have ho : [FlagOp.clear] = [o] :=
      List.append_inj_right'
        (h.trans (List.append_assoc earlier (.testAndSet :: later) [o]).symm) rfl
    obtain rfl : FlagOp.clear = o := List.head_eq_of_cons_eq ho
    exact hlater (List.mem_append_right _ List.mem_cons_self)

/-- What does not clear the flag leaves it as it is, unless it sets it. -/
theorem raised_append {calls more : List FlagOp} (hclear : .clear ∉ more) :
    Raised (calls ++ more) ↔ Raised calls ∨ .testAndSet ∈ more := by
  constructor
  · rintro ⟨earlier, later, h, hlater⟩
    rcases List.append_eq_append_iff.mp h with ⟨mid, rfl, hmore⟩ | ⟨mid, rfl, hlater'⟩
    · refine .inr ?_
      rw [hmore]
      exact List.mem_append_right _ List.mem_cons_self
    · cases mid with
      | nil =>
        refine .inr ?_
        rw [List.nil_append] at hlater'
        rw [← hlater']
        exact List.mem_cons_self
      | cons o mid =>
        obtain ⟨rfl, rfl⟩ := List.cons.inj hlater'
        exact .inl ⟨earlier, mid, rfl, fun h => hlater (List.mem_append_left _ h)⟩
  · rintro (⟨earlier, later, rfl, hlater⟩ | hmem)
    · refine ⟨earlier, later ++ more, by simp, fun h => ?_⟩
      rcases List.mem_append.mp h with h | h
      · exact hlater h
      · exact hclear h
    · obtain ⟨mid, later, rfl⟩ := List.append_of_mem hmem
      refine ⟨calls ++ mid, later, by simp, fun h => hclear ?_⟩
      exact List.mem_append_right _ (List.mem_cons_of_mem _ h)

theorem raised_isSet (calls : List FlagOp) : Raised (calls ++ [.isSet]) ↔ Raised calls := by
  rw [raised_append (by simp)]
  simp

variable {f : Flag}

/-- The calls of some answered ones. -/
def calls (order : List (Answered f.service)) : List FlagOp := order.map Sigma.fst

theorem calls_append (l l' : List (Answered f.service)) : calls (l ++ l') = calls l ++ calls l' :=
  List.map_append

/-- Every look and every test-and-set answers whether the flag was raised before it. -/
structure Faithful (order : List (Answered f.service)) : Prop where
  isSet : ∀ before (r : Bool) after, order = before ++ ⟨.isSet, r⟩ :: after →
    (r = true ↔ Raised (calls before))
  testAndSet : ∀ before (r : Bool) after, order = before ++ ⟨.testAndSet, r⟩ :: after →
    (r = false ↔ ¬ Raised (calls before))

/-- The call is a test-and-set that has found the flag clear. -/
def won : Answered f.service → Bool
  | ⟨.testAndSet, r⟩ => !r
  | _ => false

/-- **Between two clearings exactly one test-and-set wins**, if there is one at all; and so it is
before the first clearing, and after the last. -/
theorem Faithful.one_winner {order before between after : List (Answered f.service)}
    (h : Faithful order) (horder : order = before ++ between ++ after)
    (hbefore : ¬ Raised (calls before)) (hclear : .clear ∉ calls between) :
    (.testAndSet ∈ calls between → between.countP won = 1) ∧
      (.testAndSet ∉ calls between → between.countP won = 0) := by
  induction between using List.reverseRecOn generalizing after with
  | nil => exact ⟨fun hmem => absurd hmem List.not_mem_nil, fun _ => rfl⟩
  | append_singleton between e ih =>
    obtain ⟨o, r⟩ := e
    rw [calls_append, List.mem_append, not_or] at hclear
    have horder' : order = before ++ between ++ ⟨o, r⟩ :: after := by
      rw [horder]
      simp
    obtain ⟨hone, hnone⟩ := ih horder' hclear.1
    have hraised : Raised (calls (before ++ between)) ↔ .testAndSet ∈ calls between := by
      rw [calls_append, raised_append hclear.1]
      exact or_iff_right hbefore
    rw [List.countP_append, calls_append, List.mem_append]
    cases o with
    | clear => exact absurd List.mem_cons_self hclear.2
    | isSet =>
      have hother : FlagOp.testAndSet ∉ [FlagOp.isSet] := by simp
      have hlost : List.countP won [(⟨.isSet, r⟩ : Answered f.service)] = 0 := rfl
      rw [hlost]
      exact ⟨fun hmem => hone (hmem.resolve_right hother), fun hmem => hnone fun h => hmem (.inl h)⟩
    | testAndSet =>
      have hr := h.testAndSet _ r _ horder'
      rw [hraised] at hr
      refine ⟨fun _ => ?_, fun hmem => absurd (.inr List.mem_cons_self) hmem⟩
      by_cases hset : .testAndSet ∈ calls between
      · obtain rfl : r = true := by
          cases r with
          | true => rfl
          | false => exact absurd hset (hr.mp rfl)
        rw [hone hset]
        rfl
      · obtain rfl : r = false := hr.mpr hset
        rw [hnone hset]
        rfl

/-! ## Calls done one after another -/

section

variable {m m' : Memory} {order : List (Answered f.service)}

/-- The word is one where the flag is raised, and zero where it is not. -/
theorem word_of_serially (hm : m.read .w64 f.word = 0) (h : Serially f.effects m order m') :
    (Raised (calls order) ∧ m'.read .w64 f.word = 1) ∨
      (¬ Raised (calls order) ∧ m'.read .w64 f.word = 0) := by
  induction order using List.reverseRecOn generalizing m' with
  | nil =>
    cases h
    exact .inr ⟨not_raised_nil, hm⟩
  | append_singleton order e ih =>
    obtain ⟨mid, hdone, -, hlast⟩ := h.split
    obtain ⟨o, r⟩ := e
    rw [calls_append]
    obtain ⟨-, rfl⟩ := hlast
    cases o with
    | testAndSet => exact .inl ⟨raised_testAndSet _, Memory.read_write_self _ _ _ _⟩
    | clear => exact .inr ⟨not_raised_clear _, Memory.read_write_self _ _ _ _⟩
    | isSet =>
      have hcalls : calls order ++ calls [(⟨.isSet, r⟩ : Answered f.service)] =
          calls order ++ [.isSet] := rfl
      rw [hcalls, raised_isSet]
      exact ih hdone

theorem found_of_serially (hm : m.read .w64 f.word = 0) (h : Serially f.effects m order m') :
    (m'.read .w64 f.word != 0) = true ↔ Raised (calls order) := by
  rcases word_of_serially hm h with ⟨hraised, hword⟩ | ⟨hclear, hword⟩
  · rw [hword]
    exact iff_of_true (by decide) hraised
  · rw [hword]
    exact iff_of_false (by decide) hclear

/-- **Calls done one after another are in a faithful order**, if the flag is clear at first. -/
theorem faithful_of_serially (hm : m.read .w64 f.word = 0) (h : Serially f.effects m order m') :
    Faithful order where
  isSet before r after horder := by
    rw [horder] at h
    obtain ⟨mid, hdone, hr, -⟩ := h.split
    rw [← found_of_serially hm hdone]
    exact Eq.congr_left hr
  testAndSet before r after horder := by
    rw [horder] at h
    obtain ⟨mid, hdone, hr, -⟩ := h.split
    rw [← found_of_serially hm hdone, Bool.not_eq_true]
    exact Eq.congr_left hr

end

/-- Between two clearings, and before the first one and after the last, exactly one test-and-set
wins, if there is one at all. -/
def OneWinner (order : List (Answered f.service)) : Prop :=
  ∀ before between after, order = before ++ between ++ after →
    before = [] ∨ (∃ earlier r, before = earlier ++ [⟨.clear, r⟩]) →
    .clear ∉ calls between → .testAndSet ∈ calls between → between.countP won = 1

theorem Faithful.oneWinner {order : List (Answered f.service)} (h : Faithful order) :
    OneWinner order := by
  intro before between after horder hstart hclear
  refine (h.one_winner horder ?_ hclear).1
  rcases hstart with rfl | ⟨earlier, r, rfl⟩
  · exact not_raised_nil
  · rw [calls_append]
    exact not_raised_clear _

/-- What has been seen of contexts that share a flag is what can be seen of calls that take effect
one at a time, each between its start and its return, and in a faithful order. -/
def Explained (f : Flag) {κ : Type} [DecidableEq κ] (m : Memory)
    (history : List (Moment f.service κ)) :
    Prop :=
  ∃ moments x, Reference.Run f.effects (.start m) moments x ∧
    moments.filter Moment.visible = history ∧
    Faithful ((moments.filterMap Moment.effect?).map Prod.snd) ∧
    OneWinner ((moments.filterMap Moment.effect?).map Prod.snd)

/-- What is linearizable is explained, and leaves zero or one in the word. -/
theorem explained_of_linearizable {κ : Type} [DecidableEq κ] {m m' : Memory}
    {history : List (Moment f.service κ)} (hm : m.read .w64 f.word = 0)
    (h : Linearizable f.effects m history m') :
    f.Explained m history ∧ (m'.read .w64 f.word = 0 ∨ m'.read .w64 f.word = 1) := by
  obtain ⟨moments, x, hrun, hseen, rfl⟩ := h
  have hserial := hrun.serially
  have hfaithful := faithful_of_serially hm hserial
  refine ⟨⟨moments, x, hrun, hseen, hfaithful, hfaithful.oneWinner⟩, ?_⟩
  rcases word_of_serially hm hserial with ⟨-, hword⟩ | ⟨-, hword⟩
  · exact .inr hword
  · exact .inl hword

end Flag

/-- **A flag has exactly one winner per clearing.** Any number of contexts set it, clear it and look
at it: in any interleaving, with any rejections, on a backend with instructions or exclusive pairs;
and preempting each other on one core, on a single core or under a global lock, which need not have
been constructed. Then what is seen of them is explained by a faithful order of calls, with one
winner between two clearings, and the word is zero or one at every instant. -/
theorem Flag.one_winner_per_clearing (f : Flag) (hf : f.word ≠ .globalLock) :
    (f.backend.strategy = .nativeCas ∨ f.backend.strategy = .exclusivePair →
      ∀ (n : Nat) (shared : Shared) (core : Fin n → Core) (todo : Fin n → List FlagOp)
        (choices : List (Fin n × Bool)), shared.memory.read .w64 f.word = 0 →
        let x := (ManyCores.start (S := f.service) shared core todo).run choices
        f.Explained shared.memory x.history ∧
          (x.shared.memory.read .w64 f.word = 0 ∨ x.shared.memory.read .w64 f.word = 1)) ∧
    (f.backend.strategy = .singleCore ∨ f.backend.strategy = .globalLock →
      ∀ (s : State) (todo : List FlagOp) (choices : List (OneCore.Choice f.service)),
        f.backend.controller.Sound s →
        (f.backend.strategy = .globalLock → s.shared.once ≠ .running ∧ OneCore.lockWord s = 0) →
        s.read .w64 f.word = 0 →
        let x := (OneCore.start (S := f.service) s todo).run f.backend.controller choices
        f.Explained s.shared.memory x.history ∧
          (x.state.read .w64 f.word = 0 ∨ x.state.read .w64 f.word = 1)) := by
  constructor
  · intro hb n shared core todo choices hclear
    have serves : ∀ o, ManyCores.world.Indivisible (f.service.prog o) (f.effects o) :=
      FlagOp.indivisible (ManyCores.provides_of_strategy hb) hf
    have hrun := ManyCores.linearizable_run (S := f.service) serves shared core todo choices
    exact explained_of_linearizable hclear hrun
  · intro hb s todo choices hs hlock hclear
    obtain ⟨b, word⟩ := f
    -- on either backend, with or without a lock to be found free
    have explained : ∀ guarded, (∀ flag, (OneCore.world b.controller guarded flag).Provides b) →
        (guarded = true → s.shared.once ≠ .running ∧ OneCore.lockWord s = 0) →
        let x := (OneCore.start (S := Flag.service ⟨b, word⟩) s todo).run b.controller choices
        Flag.Explained ⟨b, word⟩ s.shared.memory x.history ∧
          (x.state.read .w64 word = 0 ∨ x.state.read .w64 word = 1) := by
      intro guarded provides hfree x
      have serves := fun flag o => FlagOp.indivisible (f := ⟨b, word⟩) (provides flag) hf o
      obtain ⟨m, hm, hread, -⟩ :=
        OneCore.linearizable_from serves (.outside rfl hs hfree) todo choices
      rw [← hread .w64 word hf]
      exact explained_of_linearizable hclear hm
    cases b with
    | singleCore c isa widths =>
      exact explained false (OneCore.provides_singleCore c isa widths) fun h =>
        absurd h Bool.false_ne_true
    | globalLock c base =>
      exact explained true (OneCore.provides_globalLock c base) fun _ => hlock rfl
    | native => simp [Backend.strategy] at hb
    | traced => simp [Backend.strategy] at hb
    | casOnly => simp [Backend.strategy] at hb
    | pair isa => simp [Backend.strategy] at hb

/-- Two contexts set a flag on cores of their own, a step each at a time; and a handler sets one
while the context that it interrupts is about to, under a global lock that nobody has
constructed. -/
theorem Flag.two_setters :
    (let f : Flag := ⟨.pair .aarch64, .cell 0⟩
      let x := (ManyCores.start (S := f.service) Shared.start (fun _ => .start true true)
        fun _ : Fin 2 => [.testAndSet]).run (List.replicate 20 [(0, false), (1, false)]).flatten
      x.isDone ∧ x.shared.memory.read .w64 (.cell 0) = 1 ∧ f.Explained Memory.zero x.history) ∧
    (let f : Flag := ⟨.globalLock .line .native, .cell 0⟩
      let x := (OneCore.start (S := f.service) (.start true true) [.testAndSet, .isSet]).run .line
        ([.go false, .interrupt false [.testAndSet, .clear]] ++ List.replicate 80 (.go false))
      x.isDone = true ∧ x.state.read .w64 (.cell 0) = 1 ∧ f.Explained Memory.zero x.history) := by
  have cores :=
    (Flag.one_winner_per_clearing ⟨.pair .aarch64, .cell 0⟩ Addr.noConfusion).1 (.inr rfl) 2
      Shared.start (fun _ => .start true true) (fun _ => [.testAndSet])
      (List.replicate 20 [(0, false), (1, false)]).flatten rfl
  have handlers :=
    (Flag.one_winner_per_clearing ⟨.globalLock .line .native, .cell 0⟩ Addr.noConfusion).2
      (.inr rfl) (.start true true) [.testAndSet, .isSet]
      ([.go false, .interrupt false [.testAndSet, .clear]] ++ List.replicate 80 (.go false))
      Controller.noConfusion (fun _ => ⟨OnceStatus.noConfusion, rfl⟩) rfl
  exact ⟨⟨by decide +kernel, by decide +kernel, cores.1⟩, by decide +kernel, by decide +kernel,
    handlers.1⟩

end Atomicity
