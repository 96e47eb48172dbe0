import Atomicity.Proofs.ExclusivePair
import Atomicity.Proofs.ManyCores.Machine
import Atomicity.Proofs.World

/-!
# The world of a context on one of many cores

What a context can count on while other cores run: memory is as it left it, or its exclusive monitor
is closed (`Drift`). That is all that there is between cores, and enough for every operation of the
backends that have an instruction or an exclusive pair for it.

**The primitive operations of the native backends are indivisible** (`provides_native`,
`provides_traced`, `provides_casOnly`): each has one instruction that does it all. **So are those of
the exclusive pairs** (`provides_pair`): if a store-exclusive finds the monitor open, nobody has
written since the load-exclusive, and if it stores nothing, nothing has been done.
-/

namespace Atomicity

namespace ManyCores

open Prog

/-- What other cores may have done. -/
def Drift (s s' : State) : Prop :=
  (s'.core = s.core ∧ s'.shared.memory = s.shared.memory) ∨ s'.core.monitor = none

theorem Drift.refl (s : State) : Drift s s := .inl ⟨rfl, rfl⟩

theorem Drift.trans {s s' s'' : State} (h : Drift s s') (h' : Drift s' s'') : Drift s s'' := by
  rcases h' with ⟨hcore', hmem'⟩ | hclosed'
  · rcases h with ⟨hcore, hmem⟩ | hclosed
    · exact .inl ⟨hcore'.trans hcore, hmem'.trans hmem⟩
    · exact .inr (hcore' ▸ hclosed)
  · exact .inr hclosed'

/-- What a context runs in while other cores do. -/
def world : World Unit where
  start := ()
  note _ _ := ()
  env _ := Drift
  ready _ _ := True
  lawful _ _ := True
  rest _ _ := True
  view s := s.shared.memory
  env_refl _ := Drift.refl
  rest_start _ := trivial
  rest_lawful _ := trivial

variable {α : Type} {w : Width} {a : Addr}

/-! ## Instructions -/

theorem still_instr {i : Instr} (h : ∀ s refused, (i.exec refused s).2 = s) :
    world.Silent world.rest (perform i) fun _ => world.rest := by
  refine World.Silent.instr fun t s s' refused _ _ => ⟨trivial, trivial, ?_, trivial⟩
  rw [h]

/-- An instruction that does at once what an effect says. -/
theorem commits_instr {i : Instr} {E : Effect i.Reply}
    (h : ∀ s refused, ((i.exec refused s).1, (i.exec refused s).2.shared.memory) =
      E s.shared.memory) :
    world.Indivisible (perform i) E :=
  World.CommitsOn.instr fun _ _ s' refused _ _ =>
    ⟨trivial, trivial, ⟨trivial, h s' refused⟩, trivial⟩

theorem fence (isa : Isa) : world.Silent world.rest (perform (.fence isa)) fun _ => world.rest :=
  still_instr fun _ _ => rfl

theorem enterUpdate : world.Silent world.rest (perform .enterUpdate) fun _ => world.rest :=
  still_instr fun _ _ => rfl

theorem read (w : Width) (a : Addr) : world.Indivisible (perform (.read w a)) (Effect.load w a) :=
  commits_instr fun _ _ => rfl

theorem write (w : Width) (a : Addr) (v : Word w) :
    world.Indivisible (perform (.write w a v)) (Effect.store w a v) :=
  commits_instr fun _ _ => rfl

theorem swap (isa : SwapIsa) (w : Width) (a : Addr) (v : Word w) :
    world.Indivisible (perform (.swap isa w a v)) (Effect.replace w a fun _ => v) :=
  commits_instr fun _ _ => rfl

/-- An operation that is announced first is indivisible if it is by itself. -/
theorem announced {p : Prog α} {E : Effect α} (h : world.Indivisible p E) (primitive : Primitive) :
    world.Indivisible (Native.announced primitive p) E :=
  (still_instr fun _ _ => rfl).commits fun _ => h

/-! ## Native operations -/

theorem native_compareExchange (w : Width) (a : Addr) (e d : Word w) :
    world.Indivisible (Native.compareExchange w a e d) (Effect.compareExchange w a e d) := by
  have h : world.Indivisible (perform (.compareSwap w a e d)) fun m =>
      (m.read w a, if m.read w a = e then m.write w a d else m) :=
    commits_instr fun s refused => by
      by_cases hs : s.read w a = e
      · have hs' : s.shared.memory.read w a = e := hs
        simp [Instr.exec, hs, hs']
      · have hs' : ¬ s.shared.memory.read w a = e := hs
        simp [Instr.exec, hs, hs']
        rfl
  refine (World.CommitsOn.map (Comparison.ofFound e) h).congr fun m _ => ?_
  by_cases hm : m.read w a = e
  · simp [Effect.compareExchange, Comparison.ofFound, hm]
  · simp [Effect.compareExchange, Comparison.ofFound, hm]

theorem native_fetchAdd (w : Width) (a : Addr) (v : Word w) :
    world.Indivisible (Native.fetchAdd w a v) (Effect.replace w a (· + v)) :=
  commits_instr fun _ _ => rfl

/-- **The primitive operations of the native backend are indivisible.** -/
theorem provides_native : world.Provides .native where
  enterUpdate := enterUpdate
  load _ w := World.Commits.load (fence _) (read w _)
  store _ w v := World.Commits.store (fence _) (write w _ v)
  exchange _ w v := swap .x86 w _ v
  compareExchange _ w e d := native_compareExchange w _ e d
  fetchAdd _ w v := native_fetchAdd w _ v
  testSetLock _ v := swap .x86 .w64 _ v
  privilegedStore _ v := World.Commits.store (fence _) (write .w64 _ v)

theorem provides_traced : world.Provides .traced where
  enterUpdate := enterUpdate
  load ha w := announced (provides_native.load ha w) _
  store ha w v := announced (provides_native.store ha w v) _
  exchange ha w v := announced (provides_native.exchange ha w v) _
  compareExchange ha w e d := announced (provides_native.compareExchange ha w e d) _
  fetchAdd ha w v := announced (provides_native.fetchAdd ha w v) _
  testSetLock ha v := announced (provides_native.testSetLock ha v) _
  privilegedStore ha v := announced (provides_native.privilegedStore ha v) _

theorem provides_casOnly : world.Provides .casOnly where
  enterUpdate := enterUpdate
  load ha w := announced (provides_native.load ha w) _
  store ha w v := announced (provides_native.store ha w v) _
  exchange ha w v := announced (provides_native.exchange ha w v) _
  compareExchange ha w e d := announced (provides_native.compareExchange ha w e d) _
  fetchAdd ha w v := World.Indivisible.fetchApply (· + v) enterUpdate
    (announced (provides_native.load ha w) _)
    fun e d => announced (provides_native.compareExchange ha w e d) _
  testSetLock ha v := announced (provides_native.testSetLock ha v) _
  privilegedStore ha v := announced (provides_native.privilegedStore ha v) _

/-! ## Exclusive pairs -/

/-- If the monitor is open for a word, the word is still what it was when it was loaded. -/
def Reserved (w : Width) (a : Addr) (word : Word w) (_ : Unit) (s : State) : Prop :=
  s.core.monitor = some ⟨w, a⟩ → s.read w a = word

theorem Reserved.drift {word : Word w} {t : Unit} {s s' : State} (h : Reserved w a word t s)
    (hs : Drift s s') : Reserved w a word t s' := by
  rcases hs with ⟨hcore, hmem⟩ | hclosed
  · intro hopen
    rw [State.read, hmem]
    exact h (hcore ▸ hopen)
  · intro hopen
    rw [hclosed] at hopen
    cases hopen

variable {isa : PairIsa} {wanted : Register w → Prop} [DecidablePred wanted]

/-- What rounds come to, done all at once: the word, and the same word or the one stored. -/
def roundEffect (w : Width) (a : Addr) (wanted : Register w → Prop) [DecidablePred wanted]
    (v : Register w) : Effect (Register w) := fun m =>
  (Word.toRegister (m.read w a),
    if wanted (Word.toRegister (m.read w a)) then m.write w a (Register.toWord v) else m)

/-- A store-exclusive that stores finds the word that was loaded. -/
theorem storeExclusive_tries (v : Register w) (word : Word w) (hw : wanted (Word.toRegister word)) :
    world.Tries (Reserved w a word) ((perform (.storeExclusive isa w a v)).bind fun stored =>
      .ret (if stored then .inr (Word.toRegister word) else .inl ()))
        (roundEffect w a wanted v) world.rest := by
  refine World.Acts.ret
    (World.Acts.instr fun t s s' refused hs he => ⟨trivial, trivial, ?_, trivial⟩)
  by_cases hstores : s'.core.monitor = some ⟨w, a⟩ ∧ refused = false
  -- the monitor is open, so nobody has written since the load
  · have hexec : (Instr.storeExclusive isa w a v).exec refused s' =
        (true, (s'.write w a (Register.toWord v)).reserve none) := if_pos hstores
    have hword : s'.shared.memory.read w a = word := (hs.drift he) hstores.1
    rw [hexec]
    simp only [if_true, roundEffect, world, hword, if_pos hw]
    exact ⟨trivial, rfl⟩
  · have hexec : (Instr.storeExclusive isa w a v).exec refused s' = (false, s'.reserve none) :=
      if_neg hstores
    rw [hexec]
    rfl

/-- A round tries: its load-exclusive finds out whether there is anything to store. -/
theorem attempt_tries (v : Register w) :
    world.Tries world.rest (isa.attempt w a wanted v) (roundEffect w a wanted v) world.rest := by
  refine World.Acts.instr_or (k := id) (L := fun r m => r = Word.toRegister (m.read w a))
    (M := fun r t s => r = Word.toRegister (Register.toWord r) ∧
      Reserved w a (Register.toWord r) t s) (fun r => ¬ wanted r)
    (fun t s s' refused _ he => ?_) (fun r hr => ⟨fun m hm => ?_, ?_⟩)
    fun r hr => World.Acts.given fun hword => ?_
  · have hword : Register.toWord (Word.toRegister (s'.read w a)) = s'.read w a :=
      Register.toWord_toRegister _
    exact ⟨trivial, trivial, rfl, trivial, rfl, (congrArg Word.toRegister hword).symm,
      fun _ => hword.symm⟩
  · rw [roundEffect, ← hm, if_neg hr]
    rfl
  · simp only [if_neg hr]
    exact World.Silent.bind (M := fun _ => world.rest)
      (World.Silent.instr fun _ _ _ _ _ _ => ⟨trivial, trivial, rfl, trivial⟩)
      fun _ => World.Silent.ret.mono fun _ _ _ h => ⟨congrArg Sum.getRight? h.1, h.2⟩
  · obtain ⟨word, rfl⟩ : ∃ word, r = Word.toRegister word := ⟨_, hword⟩
    have hw : wanted (Word.toRegister word) := Decidable.not_not.mp hr
    simp only [if_pos hw, Register.toWord_toRegister]
    exact storeExclusive_tries v word hw

theorem attempts_indivisible (v : Register w) (answer : Register w → α) :
    world.Indivisible (isa.attempts w a wanted v answer) fun m =>
      (answer (Word.toRegister (m.read w a)), (roundEffect w a wanted v m).2) :=
  (fence _).commits fun _ => World.CommitsOn.silent
    (World.Commits.loop (fun _ => attempt_tries v) ()) fun _ => (fence _).bind fun _ =>
      World.Silent.ret

theorem pair_exchange (isa : PairIsa) (w : Width) (a : Addr) (v : Word w) :
    world.Indivisible (isa.exchange w a v) (Effect.replace w a fun _ => v) := by
  rw [PairIsa.exchange_eq]
  refine (attempts_indivisible _ _).congr fun m _ => ?_
  simp [Effect.replace, roundEffect]

theorem pair_compareExchange (isa : PairIsa) (w : Width) (a : Addr) (e d : Word w) :
    world.Indivisible (isa.compareExchange w a e d) (Effect.compareExchange w a e d) := by
  rw [PairIsa.compareExchange_eq]
  refine (attempts_indivisible _ _).congr fun m _ => ?_
  by_cases hm : m.read w a = e
  · simp [Effect.compareExchange, roundEffect, Comparison.ofFound, hm]
  · simp [Effect.compareExchange, roundEffect, Comparison.ofFound, hm]

/-- **The primitive operations of the exclusive pairs are indivisible.** -/
theorem provides_pair (isa : PairIsa) : world.Provides (.pair isa) where
  enterUpdate := enterUpdate
  load _ w := World.Commits.load (fence _) (read w _)
  store _ w v := World.Commits.store (fence _) (write w _ v)
  exchange _ w v := pair_exchange isa w _ v
  compareExchange _ w e d := pair_compareExchange isa w _ e d
  fetchAdd _ w v := World.Indivisible.fetchApply (· + v) enterUpdate
    (World.Commits.load (fence _) (read w _)) fun e d => pair_compareExchange isa w _ e d
  testSetLock _ v := pair_exchange isa .w64 _ v
  privilegedStore _ v := World.Commits.store (fence _) (write .w64 _ v)

end ManyCores

end Atomicity
