import Atomicity.Proofs.Interrupts.Flag
import Atomicity.Proofs.Threads.Calls
import Mathlib.Logic.Function.Iterate

/-!
# The status register under its controller

A context that calls `disable` and `enableIf` of the controller that reads the status register and
writes it back, in any order and with any arguments. `Caller.run` is such a context after so many
steps, so each of its instants is `run n` for some `n`.

What the calls do to the status register is said once for a call as a whole (`after`, `answer`), and
an instant is the status at the last answer together with the place in the call since (`Stage`). So
at every instant all is as it was at the start but for bit 7 (`MaskBitOnly`), although what is
written back is the whole control byte.

Calls may be nested: the answers to give back (`toGiveBack`) are a stack, and the register goes by
how many there are (`Holding`): none, and it is as at the start; some, and bit 7 is set. **Sections
that are nested to any depth leave the register as they found it** (`Sections.status_after`),
because the outermost one answers what bit 7 was and all the others that it was set.
-/

namespace Atomicity

/-- The state with another status register. -/
def State.withStatus (s : State) (v : BitVec 32) : State :=
  { s with core := { s.core with cpsr := v } }

namespace StatusRegister

open Threads.Calls (MaskCall note toGiveBack toGiveBack_append)

/-! ## Calls -/

def prog : (r : MaskCall) → Prog r.Answer
  | .disable => Controller.arm.disable
  | .enableIf b => Controller.arm.enableIf b

/-- Contexts that call the controller of the status register, and nothing else. -/
abbrev calling : Service where
  Request := MaskCall
  Answer := MaskCall.Answer
  prog := prog

/-- What a call answers where it finds the status register to be `v`. -/
def answer (v : BitVec 32) : (r : MaskCall) → r.Answer
  | .disable => !v.getLsbD 7
  | .enableIf _ => ()

/-- What a call makes of the status register. -/
def after (v : BitVec 32) : MaskCall → BitVec 32
  | .disable => v ||| Core.maskBit
  | .enableIf true => v &&& ~~~Core.maskBit
  | .enableIf false => v

/-- What calls answer one after another, the first of which finds the status register to be `v`. -/
def replies (v : BitVec 32) : List MaskCall → List (Answered calling)
  | [] => []
  | r :: rs => ⟨r, answer v r⟩ :: replies (after v r) rs

theorem replies_append (v : BitVec 32) (rs rs' : List MaskCall) :
    replies v (rs ++ rs') = replies v rs ++ replies (rs.foldl after v) rs' := by
  induction rs generalizing v with
  | nil => rfl
  | cons r rs ih => exact congrArg (⟨r, answer v r⟩ :: ·) (ih (after v r))

/-- A context that makes calls, and the state that it works on. -/
structure Caller where
  context : Context calling
  state : State

namespace Caller

def start (s : State) (calls : List MaskCall) : Caller := ⟨.start calls, s⟩

def step (x : Caller) : Caller :=
  let out := x.context.step false x.state
  ⟨out.1, out.2⟩

/-- The context after so many steps. -/
def run (n : Nat) (x : Caller) : Caller := step^[n] x

/-- The status register. -/
abbrev status (x : Caller) : BitVec 32 := x.state.core.cpsr

end Caller

/-! ## Bits -/

/-- A call changes no bit but bit 7. -/
theorem getLsbD_after {j : Nat} (hj : j ≠ 7) (v : BitVec 32) (r : MaskCall) :
    (after v r).getLsbD j = v.getLsbD j := by
  cases r with
  | disable =>
    rw [after, Core.getLsbD_or_maskBit]
    simp [hj]
  | enableIf b =>
    cases b with
    | false => rfl
    | true =>
      rw [after, Core.getLsbD_andNot_maskBit]
      simp [hj]

theorem getLsbD_after_disable (v : BitVec 32) : (after v .disable).getLsbD 7 = true := by
  rw [after, Core.getLsbD_or_maskBit]
  simp

theorem getLsbD_after_enableIf (v : BitVec 32) : (after v (.enableIf true)).getLsbD 7 = false := by
  rw [after, Core.getLsbD_andNot_maskBit]
  simp

/-- Status words that agree in bit 7 and in all others are the same. -/
theorem eq_of_bits {u v : BitVec 32} (hothers : ∀ j, j ≠ 7 → u.getLsbD j = v.getLsbD j)
    (hmask : u.getLsbD 7 = v.getLsbD 7) : u = v := by
  refine BitVec.eq_of_getLsbD_eq fun j _ => ?_
  by_cases hj : j = 7
  · rw [hj, hmask]
  · exact hothers j hj

/-- To mask where bit 7 is set changes nothing. -/
theorem after_disable_of_masked {v : BitVec 32} (h : v.getLsbD 7 = true) : after v .disable = v :=
  eq_of_bits (fun _ hj => getLsbD_after hj v .disable) ((getLsbD_after_disable v).trans h.symm)

theorem answer_after_disable (v : BitVec 32) : answer (after v .disable) .disable = false :=
  congrArg not (getLsbD_after_disable v)

/-- To give back what the call of `disable` before was answered leaves the status register as that
call found it. -/
theorem after_enableIf_after_disable {v : BitVec 32} {found : Bool}
    (hfound : answer v .disable = found) :
    after (after v .disable) (.enableIf found) = v := by
  have hmask : v.getLsbD 7 = !found := by rw [← hfound, answer, Bool.not_not]
  cases found with
  | false => exact after_disable_of_masked hmask
  | true =>
    refine eq_of_bits (fun j hj => ?_) ((getLsbD_after_enableIf _).trans hmask.symm)
    rw [getLsbD_after hj, getLsbD_after hj]

/-! ## The place in a call -/

/-- Where a context is in its calls: the status register at the last answer, and what it is now. -/
inductive Stage : Option (Pending calling) → (last now : BitVec 32) → Prop
  | between (v : BitVec 32) : Stage none v v
  | begun (r : MaskCall) (v : BitVec 32) : Stage (some (.start r)) v v
  | masking (v : BitVec 32) :
      Stage (some ⟨MaskCall.disable,
        .instr (.writeCpsr (v ||| Core.maskBit)) fun _ => .ret (v &&& Core.maskBit == 0),
        [⟨.readCpsr, v⟩]⟩) v v
  | masked (v : BitVec 32) (log : List Executed) :
      Stage (some ⟨MaskCall.disable, .ret (v &&& Core.maskBit == 0), log⟩) v (after v .disable)
  | enabling (v : BitVec 32) :
      Stage (some ⟨MaskCall.enableIf true, .instr (.writeCpsr (v &&& ~~~Core.maskBit)) .ret,
        [⟨.readCpsr, v⟩]⟩) v v
  | enabled (v : BitVec 32) (log : List Executed) :
      Stage (some ⟨MaskCall.enableIf true, .ret (), log⟩) v (after v (.enableIf true))

namespace Stage

variable {c : Context calling} {t : State} {last now : BitVec 32}
  {current : Option (Pending calling)} {p : Pending calling}

/-- **A step leaves the context at a place in its calls**: in the same one, or behind it with an
answer. -/
theorem step (h : Stage c.current last t.core.cpsr) :
    (c.step false t).2 = t.withStatus (c.step false t).2.core.cpsr ∧
      ((c.step false t).1.answered = c.answered ∧
          Stage (c.step false t).1.current last (c.step false t).2.core.cpsr ∨
        ∃ r, (c.step false t).1.answered = c.answered ++ [⟨r, answer last r⟩] ∧
          Stage (c.step false t).1.current (after last r) (c.step false t).2.core.cpsr) := by
  obtain ⟨current, todo, answered⟩ := c
  generalize hnow : t.core.cpsr = now at h
  cases h with
  | between =>
    subst hnow
    cases todo with
    | nil => exact ⟨rfl, .inl ⟨rfl, .between _⟩⟩
    | cons r todo => exact ⟨rfl, .inl ⟨rfl, .begun r _⟩⟩
  | begun r =>
    subst hnow
    cases r with
    | disable => exact ⟨rfl, .inl ⟨rfl, .masking _⟩⟩
    | enableIf b =>
      cases b with
      | false => exact ⟨rfl, .inr ⟨.enableIf false, rfl, .between _⟩⟩
      | true => exact ⟨rfl, .inl ⟨rfl, .enabling _⟩⟩
  | masking =>
    subst hnow
    -- Only the control byte is written, and no other bit of it changes.
    have hcpsr : ((Instr.writeCpsr (t.core.cpsr ||| Core.maskBit)).exec false t).2.core.cpsr =
        after t.core.cpsr .disable := Core.control_or _
    exact ⟨rfl, .inl ⟨rfl, hcpsr ▸ .masked t.core.cpsr _⟩⟩
  | masked log =>
    refine ⟨rfl, .inr ⟨.disable, ?_, hnow ▸ .between _⟩⟩
    rw [answer, ← Core.and_maskBit]
    rfl
  | enabling =>
    subst hnow
    have hcpsr : ((Instr.writeCpsr (t.core.cpsr &&& ~~~Core.maskBit)).exec false t).2.core.cpsr =
        after t.core.cpsr (.enableIf true) := Core.control_andNot _
    exact ⟨rfl, .inl ⟨rfl, hcpsr ▸ .enabled t.core.cpsr _⟩⟩
  | enabled log => exact ⟨rfl, .inr ⟨.enableIf true, rfl, hnow ▸ .between _⟩⟩

/-- Within a call no bit but bit 7 is changed. -/
theorem others {j : Nat} (h : Stage current last now) (hj : j ≠ 7) :
    now.getLsbD j = last.getLsbD j := by
  cases h with
  | masked => exact getLsbD_after hj _ _
  | enabled => exact getLsbD_after hj _ _
  | _ => rfl

theorem of_none (h : Stage none last now) : now = last := by
  cases h
  rfl

/-- A call of `enableIf` with `false` has nothing to execute. -/
theorem of_enableIf_false (h : Stage (some p) last now) (hp : p.request = MaskCall.enableIf false) :
    p = ⟨MaskCall.enableIf false, .ret (), []⟩ := by
  cases h with
  | begun r =>
    obtain rfl : r = .enableIf false := hp
    rfl
  | _ => cases hp

/-- Bit 7 stays set until a call of `enableIf` with `true` has executed its last instruction. -/
theorem masked_of_last (h : Stage current last now)
    (hcurrent : ∀ p ∈ current, p.request = MaskCall.enableIf true → p.rest.result? = none)
    (hlast : last.getLsbD 7 = true) : now.getLsbD 7 = true := by
  cases h with
  | masked => exact getLsbD_after_disable _
  | enabled => cases hcurrent _ rfl rfl
  | _ => exact hlast

end Stage

/-! ## Answers to give back -/

/-- The status register goes by the answers that are still to be given back: with none it is as it
was at the start, and with some bit 7 is set, the outermost answer says what it was, and the others
that it was set. -/
inductive Holding (v : BitVec 32) : List Bool → BitVec 32 → Prop
  | outside : Holding v [] v
  | inside (depth : Nat) :
      Holding v (List.replicate depth false ++ [answer v .disable]) (after v .disable)

namespace Holding

variable {v u : BitVec 32} {held held' : List Bool} {b : Bool}

theorem disable (h : Holding v held u) :
    Holding v (answer u .disable :: held) (after u .disable) := by
  cases h with
  | outside => exact .inside 0
  | inside depth =>
    rw [answer_after_disable, after_disable_of_masked (getLsbD_after_disable v)]
    exact .inside (depth + 1)

theorem enableIf (h : Holding v (b :: held) u) : Holding v held (after u (.enableIf b)) := by
  generalize hall : b :: held = all at h
  cases h with
  | outside => cases hall
  | inside depth =>
    cases depth with
    | zero =>
      obtain ⟨rfl, rfl⟩ := List.cons.inj hall
      rw [after_enableIf_after_disable rfl]
      exact .outside
    | succ depth =>
      obtain ⟨rfl, rfl⟩ := List.cons.inj hall
      exact .inside depth

/-- **A call that gives back the last answer, or is one of `disable`, leaves the register so.** -/
theorem call {r : MaskCall} (h : Holding v held u)
    (hnote : note (⟨r, answer u r⟩ : Answered calling) held = some held') :
    Holding v held' (after u r) := by
  cases r with
  | disable =>
    obtain rfl := Option.some.inj hnote
    exact h.disable
  | enableIf b =>
    cases held with
    | nil => cases hnote
    | cons last held =>
      by_cases hlast : b = last
      · subst hlast
        obtain rfl : held = held' := by simpa [note] using hnote
        exact h.enableIf
      · simp [note, hlast] at hnote

theorem masked (h : Holding v held u) (hheld : held ≠ []) : u.getLsbD 7 = true := by
  cases h with
  | outside => exact absurd rfl hheld
  | inside depth => exact getLsbD_after_disable v

theorem outside_eq (h : Holding v [] u) : u = v := by
  generalize hnil : ([] : List Bool) = held at h
  cases h with
  | outside => rfl
  | inside depth => cases depth <;> cases hnil

theorem shape (h : Holding v held u) :
    held = [] ∨ ∃ depth, held = List.replicate depth false ++ [!v.getLsbD 7] := by
  cases h with
  | outside => exact .inl rfl
  | inside depth => exact .inr ⟨depth, rfl⟩

end Holding

/-! ## Every instant -/

/-- What holds of a context at every instant of its calls, which it began in state `s`. -/
structure Reached (s : State) (last : BitVec 32) (x : Caller) : Prop where
  stage : Stage x.context.current last x.status
  elsewhere : x.state = s.withStatus x.status
  others : ∀ j, j ≠ 7 → last.getLsbD j = s.core.cpsr.getLsbD j
  nested : ∀ held, toGiveBack x.context.answered = some held → Holding s.core.cpsr held last

namespace Reached

variable {s : State} {last : BitVec 32} {x : Caller}

theorem start (s : State) (calls : List MaskCall) : Reached s s.core.cpsr (.start s calls) where
  stage := .between _
  elsewhere := rfl
  others _ _ := rfl
  nested held hheld := by
    obtain rfl := Option.some.inj hheld
    exact .outside

/-- **What holds at an instant holds at the next one.** -/
theorem step (h : Reached s last x) : ∃ last', Reached s last' x.step := by
  obtain ⟨hstate, hplace⟩ := h.stage.step
  have helsewhere : x.step.state = s.withStatus x.step.status :=
    calc x.step.state
      _ = x.state.withStatus x.step.status := hstate
      _ = (s.withStatus x.status).withStatus x.step.status :=
        congrArg (·.withStatus x.step.status) h.elsewhere
  rcases hplace with ⟨hanswered, hstage⟩ | ⟨r, hanswered, hstage⟩
  · exact ⟨last, hstage, helsewhere, h.others, fun held hheld => h.nested held (hanswered ▸ hheld)⟩
  · refine ⟨after last r, hstage, helsewhere, fun j hj =>
      (getLsbD_after hj last r).trans (h.others j hj), fun held hheld => ?_⟩
    have hgiven : toGiveBack (x.context.answered ++ [⟨r, answer last r⟩]) = some held :=
      hanswered ▸ hheld
    rw [toGiveBack_append] at hgiven
    obtain ⟨before, hbefore, hnote⟩ := Option.bind_eq_some_iff.mp hgiven
    exact (h.nested before hbefore).call hnote

/-- **It holds at every instant.** -/
theorem run (h : Reached s last x) (n : Nat) : ∃ last', Reached s last' (x.run n) := by
  induction n generalizing last x with
  | zero => exact ⟨last, h⟩
  | succ n ih =>
    obtain ⟨last', h'⟩ := h.step
    exact ih h'

end Reached

/-! ## Whole calls -/

/-- The steps that a call takes: it is begun, executes its instructions, and is answered. -/
def steps : MaskCall → Nat
  | .enableIf false => 2
  | _ => 4

namespace Caller

variable {x : Caller} {r : MaskCall} {rest : List MaskCall}

/-- **From where a call is begun to where it is answered.** -/
theorem run_call (hcurrent : x.context.current = none) (htodo : x.context.todo = r :: rest) :
    x.run (steps r) = ⟨⟨none, rest, x.context.answered ++ [⟨r, answer x.status r⟩]⟩,
      x.state.withStatus (after x.status r)⟩ := by
  obtain ⟨⟨current, todo, answered⟩, s⟩ := x
  obtain rfl : current = none := hcurrent
  obtain rfl : todo = r :: rest := htodo
  cases r with
  | disable =>
    rw [answer, ← Core.and_maskBit, after, ← Core.control_or]
    rfl
  | enableIf b =>
    cases b with
    | false => rfl
    | true =>
      rw [after, ← Core.control_andNot]
      rfl

/-- Calls are made one after another, each with what the one before has left. -/
theorem run_calls (calls : List MaskCall) (hcurrent : x.context.current = none)
    (htodo : x.context.todo = calls ++ rest) :
    ∃ n, x.run n = ⟨⟨none, rest, x.context.answered ++ replies x.status calls⟩,
      x.state.withStatus (calls.foldl after x.status)⟩ := by
  induction calls generalizing x with
  | nil =>
    obtain ⟨⟨current, todo, answered⟩, s⟩ := x
    obtain rfl : current = none := hcurrent
    obtain rfl : todo = rest := htodo
    refine ⟨0, ?_⟩
    rw [replies, List.append_nil]
    rfl
  | cons r calls ih =>
    have hcall := run_call hcurrent htodo
    obtain ⟨n, hn⟩ := ih (x := x.run (steps r)) (by rw [hcall]) (by rw [hcall]; rfl)
    refine ⟨n + steps r, (Function.iterate_add_apply step n (steps r) x).trans (hn.trans ?_)⟩
    rw [hcall, List.append_assoc]
    rfl

/-- A context that is done stays as it is. -/
theorem run_of_isDone (h : x.context.isDone = true) (n : Nat) : x.run n = x := by
  obtain ⟨⟨current, todo, answered⟩, s⟩ := x
  obtain ⟨rfl, rfl⟩ := Context.isDone_iff.mp h
  exact Function.iterate_fixed rfl n

/-- Where a context comes to be done within some steps, it does so from every instant on. -/
theorem run_run_of_isDone {m : Nat} (h : (x.run m).context.isDone = true) (n : Nat) :
    (x.run n).run m = x.run m :=
  calc (x.run n).run m
    _ = x.run (m + n) := (Function.iterate_add_apply step m n x).symm
    _ = x.run (n + m) := by rw [Nat.add_comm]
    _ = (x.run m).run n := Function.iterate_add_apply step n m x
    _ = x.run m := run_of_isDone h n

/-- What has been answered stays so. -/
theorem answered_run (n : Nat) :
    ∃ more, (x.run n).context.answered = x.context.answered ++ more := by
  induction n generalizing x with
  | zero => exact ⟨[], (List.append_nil _).symm⟩
  | succ n ih =>
    obtain ⟨more, hmore⟩ := ih (x := x.step)
    have hstep := Context.answered_step () false x.state x.context
    exact ⟨_, hmore.trans ((congrArg (· ++ more) hstep).trans (List.append_assoc ..))⟩

end Caller

/-! ## Nested sections -/

/-- Sections one after another, each with others inside of it. -/
inductive Sections where
  | nil
  | cons (inside next : Sections)

namespace Sections

/-- The calls of sections, each of which gives back what it has found: the outermost ones whether
bit 7 was clear, and those inside of others that it was set. -/
def calls (found : Bool) : Sections → List MaskCall
  | nil => []
  | cons inside next => .disable :: (inside.calls false ++ .enableIf found :: next.calls found)

/-- **Nested sections leave the status register as they find it.** -/
theorem status_after (t : Sections) {v : BitVec 32} {found : Bool}
    (hfound : answer v .disable = found) :
    (t.calls found).foldl after v = v := by
  induction t generalizing v found with
  | nil => rfl
  | cons inside next ihinside ihnext =>
    -- The sections inside find bit 7 set, whatever this one has found.
    have hinside := ihinside (answer_after_disable v)
    rw [calls, List.foldl_cons, List.foldl_append, hinside, List.foldl_cons,
      after_enableIf_after_disable hfound, ihnext hfound]

/-- One section inside of another, where interrupts are enabled. -/
example :
    let t := cons (cons nil nil) nil
    t.calls (answer 0x60000013 .disable) = [.disable, .disable, .enableIf false, .enableIf true] ∧
      [MaskCall.disable, .disable, .enableIf false].foldl after 0x60000013 = 0x60000093 :=
  ⟨rfl, rfl⟩

/-- What the calls of sections are answered, one section at a time. -/
theorem replies_calls (inside next : Sections) {v : BitVec 32} {found : Bool}
    (hfound : answer v .disable = found) :
    replies v ((cons inside next).calls found) =
      [⟨.disable, found⟩] ++ replies (after v .disable) (inside.calls false) ++
        [⟨.enableIf found, ()⟩] ++ replies v (next.calls found) := by
  have hinside := inside.status_after (answer_after_disable v)
  rw [calls, replies, replies_append, hinside, replies, hfound, after_enableIf_after_disable hfound]
  simp only [List.append_assoc, List.cons_append, List.nil_append]

/-- **Nested sections give back what they are answered**, the last answer first. -/
theorem toGiveBack_calls (t : Sections) {v : BitVec 32} {found : Bool}
    (hfound : answer v .disable = found) (answered : List (Answered calling)) :
    toGiveBack (answered ++ replies v (t.calls found)) = toGiveBack answered := by
  induction t generalizing v found answered with
  | nil => rw [calls, replies, List.append_nil]
  | cons inside next ihinside ihnext =>
    let begun : Answered calling := ⟨.disable, found⟩
    let ended : Answered calling := ⟨.enableIf found, ()⟩
    have hinside := ihinside (answer_after_disable v) (answered ++ [begun])
    calc toGiveBack (answered ++ replies v ((cons inside next).calls found))
      _ = toGiveBack
            ((answered ++ [begun] ++ replies (after v .disable) (inside.calls false) ++ [ended]) ++
            replies v (next.calls found)) := by
        simp only [replies_calls inside next hfound, List.append_assoc, begun, ended]
      _ = (toGiveBack (answered ++ [begun] ++ replies (after v .disable) (inside.calls false))).bind
            (note ended) := (ihnext hfound _).trans (toGiveBack_append _ _)
      _ = ((toGiveBack answered).bind (note begun)).bind
        (note ended) := by rw [hinside, toGiveBack_append]
      _ = toGiveBack answered := by cases toGiveBack answered <;> simp [note, begun, ended]

end Sections

/-! ## Nothing but bit 7 -/

/-- What calls that a context began in state `s` have done at an instant: they have changed bit 7 of
the status register, and nothing else. -/
structure MaskBitOnly (s : State) (x : Caller) : Prop where
  /-- Nothing but the status register has changed. -/
  elsewhere : x.state = s.withStatus x.status
  others : ∀ j, j ≠ 7 → x.status.getLsbD j = s.core.cpsr.getLsbD j
  /-- The next call, if it is one of `disable`, answers whether bit 7 is clear and leaves it set. -/
  disable : ∀ rest, x.context.current = none → x.context.todo = .disable :: rest →
    (x.run 4).context =
      ⟨none, rest, x.context.answered ++ [⟨MaskCall.disable, !x.status.getLsbD 7⟩]⟩ ∧
      (x.run 4).status.getLsbD 7 = true
  /-- The next call, if it is one of `enableIf` with `true`, leaves bit 7 clear. -/
  enableIf_true : ∀ rest, x.context.current = none → x.context.todo = .enableIf true :: rest →
    (x.run 4).context = ⟨none, rest, x.context.answered ++ [⟨MaskCall.enableIf true, ()⟩]⟩ ∧
      (x.run 4).status.getLsbD 7 = false
  /-- A call of `enableIf` with `false` has nothing to execute, and has executed nothing. -/
  enableIf_false : ∀ p ∈ x.context.current, p.request = MaskCall.enableIf false →
    p = ⟨MaskCall.enableIf false, .ret (), []⟩
  /-- Of the answers to give back the outermost says whether bit 7 was clear at the start, and the
  others that it was set. -/
  nested : ∀ held ∈ toGiveBack x.context.answered,
    held = [] ∨ ∃ depth, held = List.replicate depth false ++ [!s.core.cpsr.getLsbD 7]
  /-- With an answer to give back bit 7 is set, until the last instruction of the call that gives
  back `true`. -/
  within : ∀ held ∈ toGiveBack x.context.answered, held ≠ [] →
    (∀ p ∈ x.context.current, p.request = MaskCall.enableIf true → p.rest.result? = none) →
      x.status.getLsbD 7 = true
  /-- Between two calls, with none to give back, the status register is as it was at the start. -/
  outside : x.context.current = none → toGiveBack x.context.answered = some [] →
    x.status = s.core.cpsr

theorem Reached.maskBitOnly {s : State} {last : BitVec 32} {x : Caller} (h : Reached s last x) :
    MaskBitOnly s x where
  elsewhere := h.elsewhere
  others j hj := (h.stage.others hj).trans (h.others j hj)
  disable rest hcurrent htodo := by
    rw [show x.run 4 = _ from Caller.run_call hcurrent htodo]
    exact ⟨rfl, getLsbD_after_disable _⟩
  enableIf_true rest hcurrent htodo := by
    rw [show x.run 4 = _ from Caller.run_call hcurrent htodo]
    exact ⟨rfl, getLsbD_after_enableIf _⟩
  enableIf_false p hp hrequest := by
    have hstage := h.stage
    rw [hp] at hstage
    exact hstage.of_enableIf_false hrequest
  nested held hheld := (h.nested held hheld).shape
  within held hheld hne hcurrent :=
    h.stage.masked_of_last hcurrent ((h.nested held hheld).masked hne)
  outside hcurrent hback := by
    have hstage := h.stage
    rw [hcurrent] at hstage
    exact hstage.of_none.trans (h.nested [] hback).outside_eq

/-- Calls that are nested properly from state `s` on, and leave all as it was. -/
structure Restores (s : State) (calls : List MaskCall) : Prop where
  /-- At every instant what has been given back is what was answered, the last answer first. -/
  nested : ∀ n, ∃ held, toGiveBack ((Caller.start s calls).run n).context.answered = some held
  given_back : ∀ n, ((Caller.start s calls).run n).context.isDone = true →
    toGiveBack ((Caller.start s calls).run n).context.answered = some [] ∧
      ((Caller.start s calls).run n).state = s

/-- Calls are all made in the end. -/
theorem exists_done (s : State) (calls : List MaskCall) : ∃ m, (Caller.start s calls).run m =
    ⟨⟨none, [], replies s.core.cpsr calls⟩, s.withStatus (calls.foldl after s.core.cpsr)⟩ :=
  Caller.run_calls calls rfl (List.append_nil calls).symm

/-- Calls that give back what was answered have done so from the first one on. -/
theorem toGiveBack_of_append {answered more : List (Answered calling)} {held : List Bool}
    (h : toGiveBack (answered ++ more) = some held) :
    ∃ before, toGiveBack answered = some before := by
  induction more generalizing answered with
  | nil => exact ⟨held, List.append_nil answered ▸ h⟩
  | cons call more ih =>
    rw [List.append_cons] at h
    obtain ⟨next, hnext⟩ := ih h
    rw [toGiveBack_append] at hnext
    obtain ⟨before, hbefore, -⟩ := Option.bind_eq_some_iff.mp hnext
    exact ⟨before, hbefore⟩

/-- It is enough to know how calls end. -/
theorem Restores.of_done {s : State} {calls : List MaskCall} {m : Nat}
    {log : List (Answered calling)}
    (hdone : (Caller.start s calls).run m = ⟨⟨none, [], log⟩, s⟩)
    (hback : toGiveBack log = some []) :
    Restores s calls where
  nested n := by
    obtain ⟨more, hmore⟩ := Caller.answered_run (x := (Caller.start s calls).run n) m
    rw [Caller.run_run_of_isDone (by rw [hdone]; rfl), hdone] at hmore
    have hlog : log = ((Caller.start s calls).run n).context.answered ++ more := hmore
    exact toGiveBack_of_append (hlog ▸ hback)
  given_back n hn := by
    have hend :=
      Caller.run_run_of_isDone (x := Caller.start s calls) (m := m) (by rw [hdone]; rfl) n
    rw [Caller.run_of_isDone hn, hdone] at hend
    rw [hend]
    exact ⟨hback, rfl⟩

/-- **Nested sections leave all as they find it.** -/
theorem Sections.restores (t : Sections) (s : State) :
    Restores s (t.calls (Controller.arm.enabled s.core)) := by
  have hfound : answer s.core.cpsr .disable = Controller.arm.enabled s.core :=
    (Core.and_maskBit _).symm
  obtain ⟨m, hm⟩ := exists_done s (t.calls (Controller.arm.enabled s.core))
  rw [t.status_after hfound] at hm
  exact .of_done hm (t.toGiveBack_calls hfound [])

/-- **The controller changes bit 7 of the status register and nothing else.** -/
theorem controller_changes_mask_bit_only (s : State) :
    (∀ calls : List MaskCall, (∃ m, ((Caller.start s calls).run m).context.isDone = true) ∧
      ∀ n, MaskBitOnly s ((Caller.start s calls).run n)) ∧
    ∀ t : Sections, Restores s (t.calls (Controller.arm.enabled s.core)) := by
  refine ⟨fun calls => ⟨?_, fun n => ?_⟩, fun t => t.restores s⟩
  · obtain ⟨m, hm⟩ := exists_done s calls
    exact ⟨m, congrArg (·.context.isDone) hm⟩
  · obtain ⟨last, h⟩ := (Reached.start s calls).run n
    exact h.maskBitOnly

end StatusRegister

end Atomicity
