import Atomicity.Proofs.ManyCores.Run

/-!
# Exchange on many cores

Exchanges of one shared word, on every backend that has an instruction or an exclusive pair for
them: the native ones, the exclusive pairs, and those of a single core, whose swap is one
instruction between two fences. Any number of contexts may make any number of them, with any values,
interleaved in any way.

**Nothing is lost and nothing is there twice** (`exchange_conserves`): when all calls have returned,
the values returned and the one that is left in the word are the values passed in and the one that
was there at first, each as often. Within a serial execution that is so because a call returns what
the call before it has passed in; what exclusive pairs load and do not store is not part of it.

Behind a global lock exchange is not indivisible on more cores than one, and nothing is claimed of
it.
-/

namespace Atomicity

/-- Exchanges of one word, each with the value that it puts there. -/
def Backend.exchanges (b : Backend) (w : Width) (a : Addr) : Service where
  Request := Word w
  Answer _ := Word w
  prog v := b.exchange w a v

namespace ManyCores

variable {b : Backend} {w : Width} {a : Addr}

theorem exchange_indivisible (hb : b.strategy ≠ .globalLock) (v : Word w) :
    world.Indivisible (b.exchange w a v) (Effect.replace w a fun _ => v) := by
  cases b with
  | native => exact swap .x86 w a v
  | traced => exact announced (swap .x86 w a v) .exchange
  | casOnly => exact announced (swap .x86 w a v) .exchange
  | pair isa => exact pair_exchange isa w a v
  | singleCore c isa widths => exact World.Commits.exchange (fence _) (swap isa w a v)
  | globalLock c base => exact absurd rfl hb

/-- The value that a call has put into the word. -/
def passed (e : Answered (b.exchanges w a)) : Word w := e.1

/-- The value that a call has returned. -/
def returned (e : Answered (b.exchanges w a)) : Word w := e.2

/-- Exchanges done one after another return the value of the first memory, and all values passed in
but the one that is left. -/
theorem serially_conserves {m m' : Memory} {order : List (Answered (b.exchanges w a))}
    (h : Serially (fun v : Word w => Effect.replace w a fun _ => v) m order m') :
    (m'.read w a :: order.map returned).Perm (m.read w a :: order.map passed) := by
  induction order generalizing m with
  | nil =>
    cases h
    exact List.Perm.refl _
  | cons e order ih =>
    obtain ⟨hreturned, hrest⟩ := h
    have hold : returned e = m.read w a := hreturned
    have hnew : (m.write w a (passed e)).read w a = passed e := Memory.read_write_self _ _ _ _
    -- the calls after the first begin with what that one has passed in
    have hlater := ih hrest
    change (m'.read w a :: order.map returned).Perm
      ((m.write w a (passed e)).read w a :: order.map passed) at hlater
    rw [hnew] at hlater
    calc (m'.read w a :: (e :: order).map returned).Perm
          (returned e :: m'.read w a :: order.map returned) := List.Perm.swap _ _ _
      _ |>.Perm (returned e :: passed e :: order.map passed) := hlater.cons _
      _ |>.Perm (m.read w a :: (e :: order).map passed) := by rw [hold]; exact List.Perm.refl _

/-- **Exchange loses and duplicates nothing**, whatever the interleaving. When all calls have
returned, each context its own in the order in which it made them, the values returned together with
the word are the values passed in together with what the word was, each as often. -/
theorem exchange_conserves {n : Nat} (b : Backend) (hb : b.strategy ≠ .globalLock) (w : Width)
    (target : Nat) (shared : Shared) (core : Fin n → Core) (values : Fin n → List (Word w))
    (choices : List (Fin n × Bool))
    (hdone : ((ManyCores.start (S := b.exchanges w (.cell target)) shared core values).run
      choices).isDone) :
    let x := (ManyCores.start (S := b.exchanges w (.cell target)) shared core values).run choices
    (∀ k, (x.context k).answered.map passed = values k) ∧
      (x.shared.memory.read w (.cell target) ::
          (List.finRange n).flatMap fun k => (x.context k).answered.map returned).Perm
        (shared.memory.read w (.cell target) :: (List.finRange n).flatMap values) := by
  intro x
  have serves : ∀ v : Word w, world.Indivisible (b.exchange w (.cell target) v)
      (Effect.replace w (.cell target) fun _ => v) := by
    intro v
    exact exchange_indivisible hb v
  have hpassed : ∀ k, (x.context k).answered.map passed = values k := answered_requests hdone
  obtain ⟨order, hserial, hrecord⟩ := serial_run (S := b.exchanges w (.cell target))
    (E := fun v => Effect.replace w (.cell target) fun _ => v) serves shared core
    values choices hdone
  -- the calls of all contexts are the calls of the serial execution
  have hcalls : ((List.finRange n).flatMap fun k => (x.context k).answered).Perm
      (order.map Prod.snd) := by
    have h := flatMap_recordOf_perm (List.nodup_finRange n) List.mem_finRange order
    simpa only [hrecord] using h
  have hreturned := hcalls.map returned
  have hvalues := hcalls.map passed
  rw [List.map_flatMap] at hreturned hvalues
  simp only [hpassed] at hvalues
  refine ⟨hpassed, (hreturned.cons _).trans ?_⟩
  exact (serially_conserves hserial).trans (hvalues.symm.cons _)

/-- Two contexts that exchange in one and the same value; the first store-exclusive is rejected, and
the second finds that the other context has stored. -/
theorem two_exchanges_of_one_value :
    let x := (ManyCores.start (S := (Backend.pair .aarch64).exchanges .w8 (.cell 0)) Shared.start
      (fun _ => .start true true) fun _ : Fin 2 => [(5 : Word .w8)]).run
        (List.replicate 4 (0, false) ++ [(0, true), (0, false), (0, false)] ++
          List.replicate 8 (1, false) ++ List.replicate 8 (0, false))
    (x.shared.memory.read .w8 (.cell 0) ::
      (List.finRange 2).flatMap fun k => (x.context k).answered.map returned).Perm [0, 5, 5] := by
  exact (exchange_conserves (.pair .aarch64) (by decide) .w8 0 Shared.start
    (fun _ => .start true true) (fun _ => [5]) _ (by decide)).2

end ManyCores

end Atomicity
