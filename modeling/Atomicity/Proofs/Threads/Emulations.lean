import Atomicity.Proofs.Threads.Masking

/-!
# The emulating backends between threads

Under the global lock, on a simulated core that threads take in turns, **all primitive operations
are indivisible** (`provides_globalLock`): they mask interrupts around everything that they do, so
every word is the owner's.

On a single core that is not so. Its compare-and-exchange masks interrupts around a read and a
write, and its stores and swaps do not wait for that, so a word that is compared must not be stored
to or swapped. What holds depends on the word:

- **Operations that compare are indivisible on a word that is the owner's**
  (`indivisible_of_compares`).
- **Operations that store or swap are indivisible on a word that is not** (`indivisible_of_swaps`).
- Any operation on a word that nobody asks about leaves all the others alone (`silent_of_hidden`).

A load is of both kinds. What is derived from compare-and-exchange compares, and the operations on
the word of a lock store and swap.
-/

namespace Atomicity

open Prog

namespace Operation

def width : Operation → Width
  | load w _ => w
  | store w _ _ => w
  | exchange w _ _ => w
  | compareExchange w _ _ _ => w
  | fetch _ w _ _ => w
  | fetchNew _ w _ _ => w
  | update w _ _ => w
  | testSetLock .. => .w64
  | privilegedStore .. => .w64

/-- The operation is a load or compare-and-exchange, or derived from them. -/
def compares : Operation → Bool
  | load .. => true
  | compareExchange .. => true
  | fetch .. => true
  | fetchNew .. => true
  | update .. => true
  | _ => false

/-- The operation is a load, a store or a swap, or one of those on the word of a lock. -/
def swaps : Operation → Bool
  | load .. => true
  | store .. => true
  | exchange .. => true
  | testSetLock .. => true
  | privilegedStore .. => true
  | _ => false

end Operation

namespace Threads

/-- Under the global lock, every word is the owner's. -/
def underLock : Regime where
  guarded := true
  shown w a := !(w == .w64 && a == .globalLock)
  owned _ _ := true
  lock_hidden _ := rfl
  lock_owned _ := rfl

theorem underLock_shown (w : Width) {a : Addr} (ha : a ≠ .globalLock) :
    underLock.shown w a = true := by
  simp [underLock, ha]

/-- While the lock is free, requests are about all of memory. -/
theorem Free.restrict_eq {shared : Shared} (h : Free underLock shared) :
    shared.memory.restrict underLock.shown = shared.memory := by
  apply Memory.restrict_eq_self
  intro w a hhidden
  obtain ⟨rfl, rfl⟩ : w = .w64 ∧ a = .globalLock := by simpa [underLock] using hhidden
  exact (h rfl).2

/-- **The primitive operations under the global lock are indivisible between threads.** -/
theorem provides_globalLock (base : Backend) :
    (world underLock).Provides (.globalLock .hosted base) :=
  (locks rfl).provides base rfl steady.enterUpdate fun _ _ w _ ha =>
    sole ha (underLock_shown w ha) rfl

/-- On a single core, the words that are asked about are the owner's where they are compared. -/
def onSingleCore (shown compared : Width → Addr → Bool) : Regime where
  guarded := false
  shown := shown
  owned w a := shown w a && compared w a
  lock_hidden h := absurd h Bool.false_ne_true
  lock_owned h := absurd h Bool.false_ne_true

variable {g : Regime} {isa : SwapIsa} {widths : WidthSet} {w : Width} {a : Addr}

/-! ## Words that are asked about -/

section

variable (ha : a ≠ .globalLock) (hshown : g.shown w a = true)

include ha hshown

theorem load_indivisible (isa : Isa) : (world g).Indivisible (isa.load w a) (Effect.load w a) :=
  (readable ha hshown).load isa

theorem store_indivisible (hf : g.owned w a = false) (isa : Isa) (v : Word w) :
    (world g).Indivisible (isa.store w a v) (Effect.store w a v) :=
  (writable ha (fun _ => hf) hshown).store v isa

theorem exchange_indivisible (hf : g.owned w a = false) (v : Word w) :
    (world g).Indivisible (isa.exchange w a v) (Effect.replace w a fun _ => v) :=
  (writable ha (fun _ => hf) hshown).exchange v isa

theorem compareExchange_indivisible (hf : g.owned w a = true) (e d : Word w) :
    (world g).Indivisible (SingleCore.compareExchange .hosted isa w a e d)
      (Effect.compareExchange w a e d) :=
  (owns g).masks.compareExchange (sole ha hshown hf) (fun _ _ => rfl) isa e d

theorem fetchApply_indivisible (hf : g.owned w a = true) (f : Word w → Word w) :
    (world g).Indivisible (Backend.fetchApply (.singleCore .hosted isa widths) w a f)
      (Effect.replace w a f) :=
  .fetchApply f steady.enterUpdate (load_indivisible ha hshown _)
    (compareExchange_indivisible ha hshown hf)

theorem fetch_indivisible (hf : g.owned w a = true) (op : FetchOp) (v : Word w) :
    (world g).Indivisible (Backend.fetch (.singleCore .hosted isa widths) op w a v)
      (Effect.replace w a (op.combine · v)) := by
  cases op with
  | add => exact fetchApply_indivisible ha hshown hf (· + v)
  | sub => exact fetchApply_indivisible ha hshown hf (· + -v)
  | and => exact fetchApply_indivisible ha hshown hf _
  | or => exact fetchApply_indivisible ha hshown hf _
  | xor => exact fetchApply_indivisible ha hshown hf _

end

/-- **Operations that compare are indivisible on a word that is the owner's.** -/
theorem indivisible_of_compares {o : Operation} (ho : o.compares = true) (ha : o.addr ≠ .globalLock)
    (hshown : g.shown o.width o.addr = true) (hf : g.owned o.width o.addr = true) :
    (world g).Indivisible (o.prog (.singleCore .hosted isa widths)) o.effect := by
  cases o with
  | load w a => exact load_indivisible ha hshown _
  | compareExchange w a e d => exact compareExchange_indivisible ha hshown hf e d
  | fetch op w a v => exact fetch_indivisible ha hshown hf op v
  | fetchNew op w a v => exact (fetch_indivisible ha hshown hf op v).map (op.combine · v)
  | update w a f => exact fetchApply_indivisible ha hshown hf f
  | store w a v => cases ho
  | exchange w a v => cases ho
  | testSetLock a v => cases ho
  | privilegedStore a v => cases ho

/-- **Operations that store or swap are indivisible on a word that is not the owner's.** -/
theorem indivisible_of_swaps {o : Operation} (ho : o.swaps = true) (ha : o.addr ≠ .globalLock)
    (hshown : g.shown o.width o.addr = true) (hf : g.owned o.width o.addr = false) :
    (world g).Indivisible (o.prog (.singleCore .hosted isa widths)) o.effect := by
  cases o with
  | load w a => exact load_indivisible ha hshown _
  | store w a v => exact store_indivisible ha hshown hf _ v
  | exchange w a v => exact exchange_indivisible ha hshown hf v
  | testSetLock a v => exact exchange_indivisible ha hshown hf v
  | privilegedStore a v => exact store_indivisible ha hshown hf _ v
  | compareExchange w a e d => cases ho
  | fetch op w a v => cases ho
  | fetchNew op w a v => cases ho
  | update w a f => cases ho

/-! ## Words that nobody asks about -/

section

variable {α β σ : Type} {Γ : Type} {W : World Γ} {R : Γ → State → Prop}

/-- What is silent may answer anything. -/
theorem silent_map {p : Prog α} (k : α → β) (h : W.Silent R p fun _ => R) :
    W.Silent R (p.bind fun x => .ret (k x)) fun _ => R :=
  h.bind fun _ => World.Silent.ret.mono fun _ _ _ h => h.2

theorem silent_between {before after : Prog Unit} {p : Prog α} (hb : W.Silent R before fun _ => R)
    (h : W.Silent R p fun _ => R) (ha : W.Silent R after fun _ => R) :
    W.Silent R (before.bind fun _ => p.bind fun x => after.bind fun _ => .ret x) fun _ => R :=
  hb.bind fun _ => h.bind fun x => silent_map (fun _ => x) ha

theorem silent_iterate {body : σ → Prog (σ ⊕ β)} (h : ∀ x, W.Silent R (body x) fun _ => R) (x : σ) :
    W.Silent R (Prog.iterate body x) fun _ => R := by
  refine World.Silent.loop (I := fun _ => R) (fun x => (h x).mono fun r t s hs => ?_) x
  cases r <;> exact hs

end

section

variable (ha : a ≠ .globalLock) (hhidden : g.shown w a = false) (hf : g.owned w a = false)

include ha

theorem load_silent (isa : Isa) : (world g).Silent (world g).rest (isa.load w a)
    fun _ => (world g).rest :=
  silent_between (steady.fence _) (read_silent ha) (steady.fence _)

include hhidden hf

theorem store_silent (isa : Isa) (v : Word w) :
    (world g).Silent (world g).rest (isa.store w a v) fun _ => (world g).rest :=
  (steady.fence isa).bind fun _ => (write_silent ha (fun _ => hf) hhidden v).bind fun _ =>
    steady.fence isa

theorem exchange_silent (v : Word w) :
    (world g).Silent (world g).rest (isa.exchange w a v) fun _ => (world g).rest :=
  silent_between (steady.fence _) (swap_silent ha (fun _ => hf) hhidden isa v) (steady.fence _)

theorem compareExchange_silent (e d : Word w) :
    (world g).Silent (world g).rest (SingleCore.compareExchange .hosted isa w a e d)
      fun _ => (world g).rest := by
  have body : (world g).Silent (At g false .outside 0) (do
        perform (.fence (.swap isa))
        let found ← perform (.read w a)
        when (found = e) (perform (.write w a d))
        perform (.fence (.swap isa))
        return Comparison.ofFound e found) fun _ t s => True ∧ At g false .outside 0 t s := by
    refine (steady.fence _).bind fun _ => (read_silent ha).bind fun found => ?_
    refine World.Silent.bind (M := fun _ => At g false .outside 0) ?_ fun _ =>
      (silent_map _ (steady.fence _)).mono fun _ _ _ h => ⟨trivial, h⟩
    unfold when
    split
    · exact write_silent ha (fun _ => hf) hhidden d
    · exact World.Silent.skip
  exact ((owns g).masks.masking_silent (P := fun _ => True) body fun _ _ => rfl).mono
    fun _ _ _ h => h.2

theorem fetchApply_silent (f : Word w → Word w) :
    (world g).Silent (world g).rest (Backend.fetchApply (.singleCore .hosted isa widths) w a f)
      fun _ => (world g).rest := by
  refine silent_map Prod.fst
    ((load_silent ha _).bind fun first => silent_iterate (fun x => ?_) (first, ()))
  exact steady.enterUpdate.bind fun _ =>
    silent_map _ (compareExchange_silent ha hhidden hf x.1 (f x.1))

theorem fetch_silent (op : FetchOp) (v : Word w) :
    (world g).Silent (world g).rest (Backend.fetch (.singleCore .hosted isa widths) op w a v)
      fun _ => (world g).rest := by
  cases op with
  | add => exact fetchApply_silent ha hhidden hf (· + v)
  | sub => exact fetchApply_silent ha hhidden hf (· + -v)
  | and => exact fetchApply_silent ha hhidden hf _
  | or => exact fetchApply_silent ha hhidden hf _
  | xor => exact fetchApply_silent ha hhidden hf _

end

/-- **An operation on a word that nobody asks about leaves all the others alone.** -/
theorem silent_of_hidden (o : Operation) (ha : o.addr ≠ .globalLock)
    (hhidden : g.shown o.width o.addr = false) (hf : g.owned o.width o.addr = false) :
    (world g).Silent (world g).rest (o.prog (.singleCore .hosted isa widths)) fun _ =>
      (world g).rest := by
  cases o with
  | load w a => exact load_silent ha _
  | store w a v => exact store_silent ha hhidden hf _ v
  | exchange w a v => exact exchange_silent ha hhidden hf v
  | compareExchange w a e d => exact compareExchange_silent ha hhidden hf e d
  | fetch op w a v => exact fetch_silent ha hhidden hf op v
  | fetchNew op w a v => exact silent_map (op.combine · v) (fetch_silent ha hhidden hf op v)
  | update w a f => exact fetchApply_silent ha hhidden hf f
  | testSetLock a v => exact exchange_silent ha hhidden hf v
  | privilegedStore a v => exact store_silent ha hhidden hf _ v

end Threads

end Atomicity
