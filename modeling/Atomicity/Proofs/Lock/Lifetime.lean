import Atomicity.Proofs.Uniform.Sessions
import Atomicity.Proofs.Lock.Stores

/-!
# What becomes of a spin lock

A `Lifetime` is what has become of a spin lock, going only by what has been asked of it: the guards
that were taken and neither dropped nor forgotten, whether one has been forgotten since the lock was
made, and the value last written.

`SpinLock.Agrees` says that the machine of words has the lock so: these are its live guards, there
is at most one, the word of the lock is set while it is held, and the data is that value. **An
operation on the lock does to its lifetime what it does to the lock** (`Agrees.spin`), and a request
elsewhere leaves it alone (`Agrees.elsewhere`).
-/

namespace Atomicity

open Prog

/-! ## What an effect leaves alone -/

namespace Effect

variable {α β : Type} {E : Effect α} {E' : Effect β} {a b : Addr} {w : Width}

/-- The words at an address stay as they are. -/
def Keeps (E : Effect α) (a : Addr) : Prop :=
  ∀ (m : Memory) (w : Width), (E m).2.read w a = m.read w a

namespace Keeps

@[simp]
theorem map (h : E.Keeps a) (g : α → β) : (E.map g).Keeps a := h

@[simp]
theorem andThen (h : E.Keeps a) (h' : E'.Keeps a) : (E.andThen E').Keeps a :=
  fun m w => (h' _ w).trans (h m w)

@[simp]
theorem skip (r : α) : (Effect.skip r).Keeps a := fun _ _ => rfl

@[simp]
theorem load : (Effect.load w b).Keeps a := fun _ _ => rfl

variable (hb : b ≠ a)

include hb

@[simp]
theorem store (v : Word w) : (Effect.store w b v).Keeps a := fun m _ => m.read_write_of_ne v hb

@[simp]
theorem replace (f : Word w → Word w) : (Effect.replace w b f).Keeps a :=
  fun m _ => m.read_write_of_ne _ hb

@[simp]
theorem compareExchange (expected desired : Word w) :
    (Effect.compareExchange w b expected desired).Keeps a := by
  intro m w'
  unfold Effect.compareExchange
  split
  · exact m.read_write_of_ne _ hb
  · rfl

end Keeps

end Effect

section

variable {a b : Addr} (hb : b ≠ a)

include hb

theorem CellOp.effect_keeps {t : Scalar} (op : CellOp t) : (op.effect b).Keeps a := by
  cases op <;> simp [CellOp.effect, hb]

theorem WordOp.effect_keeps {w : Width} (op : WordOp w) : (op.effect b).Keeps a := by
  cases op with
  | fetchUpdate f =>
    unfold WordOp.effect
    exact .map (.replace hb f) _
  | _ => simp [WordOp.effect, hb]

theorem FlagOp.effect_keeps (op : FlagOp) : (op.effect b).Keeps a := by
  cases op <;> simp [FlagOp.effect, hb]

theorem SpinOp.effect_keeps {t : Scalar} {l : RawLock} (hl : l.word ≠ a) (op : SpinOp t) :
    (op.effect l b).Keeps a := by
  cases op with
  | renew => exact fun m w => m.read_write_of_ne _ hl
  | brief masked v =>
    exact .andThen (.andThen (.store hl 1) (.store hb v.toRepr)) (.map (.store hl 0) _)
  | _ => simp [SpinOp.effect, hl, hb]

end

theorem RawOp.effect_keeps {l : RawLock} {a : Addr} (hl : l.word ≠ a) (op : RawOp) :
    (op.effect l).Keeps a := by
  cases op <;> simp [RawOp.effect, hl]

/-- A request leaves every word alone that is not one of its own. -/
theorem Request.effect_keeps (r : Request) {a : Addr} (ha : a ∉ r.addrs) : r.effect.Keeps a := by
  have haddr : ∀ b ∈ r.addrs, b ≠ a := fun b hb h => ha (h ▸ hb)
  unfold Request.effect
  cases r with
  | cell b op => exact op.effect_keeps (haddr b (List.mem_singleton_self b))
  | word b op => exact op.effect_keeps (haddr b (List.mem_singleton_self b))
  | flag b op => exact op.effect_keeps (haddr b (List.mem_singleton_self b))
  | raw l op => exact op.effect_keeps (haddr _ (List.mem_singleton_self _))
  | spin l d op =>
    exact op.effect_keeps (haddr d (List.mem_cons_of_mem _ (List.mem_singleton_self d)))
      (haddr _ List.mem_cons_self)
  | fetch b op v => exact .map (.replace (haddr b (List.mem_singleton_self b)) _) _
  | fetchNew b op v => exact .map (.replace (haddr b (List.mem_singleton_self b)) _) _
  | testSetLock b v => exact .map (.replace (haddr b (List.mem_singleton_self b)) _) _
  | swapLockWord b v => exact .map (.replace (haddr b (List.mem_singleton_self b)) _) _
  | storeLockWord b v => exact .map (.store (haddr b (List.mem_singleton_self b)) v) _
  | fence => exact .skip _
  | disable => exact .skip _
  | enableIf b => exact .skip _

/-! ## The guards of one lock -/

namespace GuardNames

/-- The names of the guards of a lock. -/
def of (gs : GuardNames) (l : RawLock) : List String := (gs.filter (·.1 = l)).map Prod.snd

variable (gs : GuardNames) {l l' : RawLock} {name : String}

theorem mem_of : name ∈ gs.of l ↔ (l, name) ∈ gs := by
  simp [of]

theorem of_eq_nil : gs.of l = [] ↔ ¬ ∃ g ∈ gs, g.1 = l := by
  rw [of, List.map_eq_nil_iff, List.filter_eq_nil_iff]
  simp only [decide_eq_true_eq, not_exists, not_and]

theorem of_remove : (gs.remove l name).of l = (gs.of l).filter (· ≠ name) := by
  simp only [of, remove, List.filter_filter, List.filter_map]
  congr 1
  refine List.filter_congr fun g _ => ?_
  by_cases h : g.1 = l <;> simp [Prod.ext_iff, h]

theorem of_insert : (gs.insert l name).of l = name :: (gs.of l).filter (· ≠ name) := by
  have cons : of ((l, name) :: gs.remove l name) l = name :: (gs.remove l name).of l := by simp [of]
  rw [insert, cons, of_remove]

theorem of_remove_of_ne (h : l' ≠ l) : (gs.remove l' name).of l = gs.of l := by
  simp only [of, remove, List.filter_filter]
  congr 1
  refine List.filter_congr fun g _ => ?_
  by_cases hg : g.1 = l
  · simp [Prod.ext_iff, hg, h.symm]
  · simp [hg]

theorem of_insert_of_ne (h : l' ≠ l) : (gs.insert l' name).of l = gs.of l := by
  have cons : of ((l', name) :: gs.remove l' name) l = (gs.remove l' name).of l := by simp [of, h]
  rw [insert, cons, gs.of_remove_of_ne h]

end GuardNames

/-- A request leaves the guards of every lock alone that is not its own. -/
theorem Request.guards_of (r : Request) {l : RawLock} (hl : l.word ∉ r.addrs) (m : Memory)
    (gs : GuardNames) :
    (r.guards m gs).of l = gs.of l := by
  cases r with
  | spin l' d op =>
    have hne : l' ≠ l := by
      rintro rfl
      exact hl List.mem_cons_self
    cases op with
    | acquire name => exact gs.of_insert_of_ne hne
    | acquireMasked name => exact gs.of_insert_of_ne hne
    | tryAcquire name =>
      simp only [guards, SpinOp.guards]
      split
      · exact gs.of_insert_of_ne hne
      · rfl
    | unlock name => exact gs.of_remove_of_ne hne
    | forget name => exact gs.of_remove_of_ne hne
    | _ => rfl
  | _ => rfl

/-! ## Lifetimes -/

/-- What has become of a spin lock, going by what has been asked of it. -/
structure Lifetime (t : Scalar) where
  /-- The guards that were taken and neither dropped nor forgotten, by name. -/
  live : List String
  /-- A guard has been forgotten since the lock was made. -/
  forgotten : Bool
  /-- The value last written. -/
  value : t.Value

namespace Lifetime

variable {t : Scalar}

/-- A lock that has just been made. -/
def made (v : t.Value) : Lifetime t := ⟨[], false, v⟩

/-- A guard is live, or was forgotten. -/
def held (x : Lifetime t) : Bool := !x.live.isEmpty || x.forgotten

/-- What becomes of the lock with one more operation. -/
def next (x : Lifetime t) : SpinOp t → Lifetime t
  | .acquire name | .acquireMasked name => { x with live := name :: x.live }
  | .tryAcquire name => if x.held then x else { x with live := name :: x.live }
  | .unlock name => { x with live := x.live.filter (· ≠ name) }
  | .forget name => { x with live := x.live.filter (· ≠ name), forgotten := true }
  | .setValue _ v | .replace v | .brief _ v => { x with value := v }
  | .renew => { x with forgotten := false }
  | .value _ | .isLocked => x

/-- Why the operation cannot be performed. -/
def refusal? (x : Lifetime t) : SpinOp t → Option Refusal
  | .unlock name | .forget name | .value name | .setValue name _ =>
    if name ∈ x.live then none else some (.noGuard name)
  | .replace _ | .renew => if x.live = [] then none else some .borrowed
  | .acquire _ | .tryAcquire _ | .acquireMasked _ | .isLocked | .brief .. => none

/-- What the operation answers. -/
def answer (x : Lifetime t) : SpinOp t → Answer
  | .tryAcquire _ => .truth !x.held
  | .isLocked => .truth x.held
  | .value _ | .replace _ | .renew => .value x.value
  | .brief .. => .truth true
  | .acquire _ | .acquireMasked _ | .unlock _ | .forget _ | .setValue .. => .done

end Lifetime

namespace SpinLock

variable {t : Scalar} {l : SpinLock t} {x : Lifetime t} {y : WordMachine}

/-- The machine of words has the lock as its lifetime says. -/
structure Agrees (l : SpinLock t) (x : Lifetime t) (y : WordMachine) : Prop where
  guards : y.guards.of l.lock = x.live
  one : x.live.length + x.forgotten.toNat ≤ 1
  word : y.memory.read .w64 l.lock.word = if x.held then 1 else 0
  data : y.memory.read t.width l.data = x.value.toRepr

namespace Agrees

/-- An operation is refused by what has become of the lock. -/
theorem refused (h : l.Agrees x y) (op : SpinOp t) :
    op.refused? l.lock y.guards = x.refusal? op := by
  have live : ∀ name, (if (l.lock, name) ∈ y.guards then none else some (Refusal.noGuard name)) =
      if name ∈ x.live then none else some (.noGuard name) := by
    intro name
    simp only [← h.guards, y.guards.mem_of]
  have borrowed : (if ∃ g ∈ y.guards, g.1 = l.lock then some Refusal.borrowed else none) =
      if x.live = [] then none else some .borrowed := by
    simp only [← h.guards, y.guards.of_eq_nil, ite_not]
  cases op with
  | unlock name => exact live name
  | forget name => exact live name
  | value name => exact live name
  | setValue name v => exact live name
  | replace v => exact borrowed
  | renew => exact borrowed
  | _ => rfl

theorem elsewhere (h : l.Agrees x y) {r : Request} (hlock : l.lock.word ∉ r.addrs)
    (hdata : l.data ∉ r.addrs) :
    l.Agrees x (y.next r) where
  guards := (r.guards_of hlock ..).trans h.guards
  one := h.one
  word := (r.effect_keeps hlock ..).trans h.word
  data := (r.effect_keeps hdata ..).trans h.data

theorem held_iff (h : l.Agrees x y) : x.held = true ↔ y.memory.read .w64 l.lock.word ≠ 0 := by
  rw [h.word]
  cases x.held <;> decide

/-- A lock that is free has no live guard, and none was forgotten. -/
theorem free (h : l.Agrees x y) (hfree : y.memory.read .w64 l.lock.word = 0) :
    x.live = [] ∧ x.forgotten = false := by
  have hheld : x.held = false := Bool.eq_false_iff.mpr fun hheld => h.held_iff.mp hheld hfree
  simpa [Lifetime.held] using hheld

/-- A live guard is the only one, and none was forgotten. -/
theorem only (h : l.Agrees x y) {name : String} (hlive : name ∈ x.live) :
    x.live = [name] ∧ x.forgotten = false := by
  have hone := h.one
  have hlength : x.live.length = 1 := by
    have hpos := List.length_pos_of_mem hlive
    omega
  obtain ⟨n, hn⟩ := List.length_eq_one_iff.mp hlength
  rw [hn] at hlive
  obtain rfl := List.mem_singleton.mp hlive
  rw [hlength] at hone
  refine ⟨hn, ?_⟩
  cases hforgotten : x.forgotten with
  | false => rfl
  | true => simp [hforgotten] at hone

/-- To take a lock that is free. -/
theorem taken (h : l.Agrees x y) (hdata : l.data ≠ l.lock.word)
    (hfree : y.memory.read .w64 l.lock.word = 0)
    (name : String) : l.Agrees { x with live := name :: x.live }
      ⟨y.memory.write .w64 l.lock.word 1, y.guards.insert l.lock name⟩ := by
  obtain ⟨hlive, hforgotten⟩ := h.free hfree
  refine ⟨?_, ?_, ?_, ?_⟩
  · rw [GuardNames.of_insert, h.guards, hlive, List.filter_nil]
  · simp [hlive, hforgotten]
  · rw [Memory.read_write_self, if_pos (by simp [Lifetime.held])]
  · exact (y.memory.read_write_of_ne _ hdata.symm).trans h.data

/-- To write to a lock's value. -/
theorem written (h : l.Agrees x y) (hdata : l.data ≠ l.lock.word) (v : t.Value) :
    l.Agrees { x with value := v } ⟨y.memory.write t.width l.data v.toRepr, y.guards⟩ where
  guards := h.guards
  one := h.one
  word := (y.memory.read_write_of_ne _ hdata).trans h.word
  data := y.memory.read_write_self ..

/-- To free a lock that no guard is left of. -/
theorem freed (h : l.Agrees x y) (hdata : l.data ≠ l.lock.word) {gs : GuardNames}
    (hgs : gs.of l.lock = []) :
    l.Agrees ⟨[], false, x.value⟩ ⟨y.memory.write .w64 l.lock.word 0, gs⟩ where
  guards := hgs
  one := Nat.zero_le 1
  word := y.memory.read_write_self ..
  data := (y.memory.read_write_of_ne _ hdata.symm).trans h.data

/-- To set the word of a lock that is held changes nothing. -/
theorem write_of_held (h : l.Agrees x y) (hheld : x.held = true) :
    y.memory.write .w64 l.lock.word 1 = y.memory := by
  have hone : y.memory.read .w64 l.lock.word = 1 := h.word.trans (if_pos hheld)
  rw [← hone, Memory.write_read]

/-- To try to take a lock takes it if it is free, and changes nothing otherwise. -/
theorem attempted (h : l.Agrees x y) (hdata : l.data ≠ l.lock.word) (name : String) :
    ((.tryAcquire name : SpinOp t).effect l.lock l.data y.memory).1 = x.answer (.tryAcquire name) ∧
      l.Agrees (x.next (.tryAcquire name))
        (y.next (.spin l.lock l.data (.tryAcquire name : SpinOp t))) := by
  simp only [WordMachine.next, Request.effect, Request.guards, SpinOp.effect,
    SpinOp.guards, Effect.map, Effect.replace, Lifetime.answer, Lifetime.next]
  cases hheld : x.held with
  | false =>
    have hzero : y.memory.read .w64 l.lock.word = 0 := h.word.trans (if_neg (by simp [hheld]))
    have hfound : (y.memory.read .w64 l.lock.word == 0) = true := beq_iff_eq.mpr hzero
    simp only [hfound, if_pos hzero, Bool.not_false, Bool.false_eq_true, if_false, true_and]
    exact h.taken hdata hzero name
  | true =>
    have hset := h.held_iff.mp hheld
    have hfound : (y.memory.read .w64 l.lock.word == 0) = false := beq_eq_false_iff_ne.mpr hset
    simp only [hfound, if_neg hset, h.write_of_held hheld, Bool.not_true, if_true, true_and]
    exact h

/-- **An operation on a lock does to its lifetime what it does to the lock.** -/
theorem spin (h : l.Agrees x y) (hdata : l.data ≠ l.lock.word) (op : SpinOp t)
    (hlive : x.refusal? op = none) (hfree : op.waits = true → y.memory.read .w64 l.lock.word = 0) :
    (op.effect l.lock l.data y.memory).1 = x.answer op ∧
      l.Agrees (x.next op) (y.next (.spin l.lock l.data op)) := by
  have present : ∀ {name}, (if name ∈ x.live then none else some (Refusal.noGuard name)) = none →
      x.live = [name] ∧ x.forgotten = false := by
    intro name hnone
    by_cases hname : name ∈ x.live
    · exact h.only hname
    · simp [hname] at hnone
  have unborrowed : (if x.live = [] then none else some Refusal.borrowed) = none → x.live = [] := by
    intro hnone
    by_cases hnil : x.live = []
    · exact hnil
    · simp [hnil] at hnone
  have value : Scalar.Value.ofRepr (y.memory.read t.width l.data) = x.value := by
    rw [h.data, Scalar.Value.ofRepr_toRepr]
  cases op with
  | acquire name => exact ⟨rfl, h.taken hdata (hfree rfl) name⟩
  | acquireMasked name => exact ⟨rfl, h.taken hdata (hfree rfl) name⟩
  | tryAcquire name => exact h.attempted hdata name
  | unlock name =>
    obtain ⟨hone, hforgotten⟩ := present hlive
    have hnone : (y.guards.remove l.lock name).of l.lock = [] := by
      rw [GuardNames.of_remove, h.guards, hone]
      simp
    have hnext :
        x.next (.unlock name) = ⟨[], false, x.value⟩ := by simp [Lifetime.next, hone, hforgotten]
    exact ⟨rfl, hnext ▸ h.freed hdata hnone⟩
  | forget name =>
    obtain ⟨hone, hforgotten⟩ := present hlive
    have hnone : (y.guards.remove l.lock name).of l.lock = [] := by
      rw [GuardNames.of_remove, h.guards, hone]
      simp
    have hnext : x.next (.forget name) = ⟨[], true, x.value⟩ := by simp [Lifetime.next, hone]
    have hset : x.held = true := by simp [Lifetime.held, hone]
    rw [hnext]
    exact ⟨rfl, hnone, Nat.le_refl 1, h.word.trans (if_pos hset), h.data⟩
  | value name => exact ⟨congrArg Answer.value value, h⟩
  | setValue name v => exact ⟨rfl, h.written hdata v⟩
  | isLocked =>
    have hanswer : (y.memory.read .w64 l.lock.word != 0) = x.held := by
      rw [Bool.eq_iff_iff, bne_iff_ne, h.held_iff]
    exact ⟨congrArg Answer.truth hanswer, h⟩
  | replace v => exact ⟨congrArg Answer.value value, h.written hdata v⟩
  | renew =>
    have hnone := unborrowed hlive
    have hnext : x.next .renew = ⟨[], false, x.value⟩ := by simp [Lifetime.next, hnone]
    exact ⟨congrArg Answer.value value, hnext ▸ h.freed hdata (h.guards.trans hnone)⟩
  | brief masked v =>
    obtain ⟨hnone, hforgotten⟩ := h.free (hfree rfl)
    have hnext :
        x.next (.brief masked v) = ⟨[], false, v⟩ := by simp [Lifetime.next, hnone, hforgotten]
    have hmemory :
        ((y.memory.write .w64 l.lock.word 1).write t.width l.data v.toRepr).write .w64
          l.lock.word 0 =
        (y.memory.write t.width l.data v.toRepr).write .w64 l.lock.word 0 := by
      rw [y.memory.write_comm _ _ hdata.symm, Memory.write_write]
    have hfreed := (h.written hdata v).freed hdata (h.guards.trans hnone)
    rw [← hmemory] at hfreed
    exact ⟨rfl, hnext ▸ hfreed⟩

end Agrees

end SpinLock

end Atomicity
