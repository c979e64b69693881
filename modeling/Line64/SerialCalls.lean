import Line64.Mealy
import Line64.Transition

/-!
# Calls executed one after another

A service starts numbered calls, each of which takes accesses of its own and
has an answer once it has returned. In a serial execution every call returns
before the next one starts. The module reduces the question whether the
serial answers are those of a machine to one step of one call. No queue is
mentioned here.
-/

namespace Line64.SerialCalls

open Transition Mealy

variable {σ τ α ο ω : Type}

/-- A system that performs operations by calls of several accesses. -/
structure Service (σ α ο ω : Type) where
  /-- The system in which the accesses take place. -/
  system : System σ α
  /-- Actions that start the call of a given number. -/
  start : ℕ → ο → α → Prop
  /-- Accesses of this call. -/
  access : ℕ → ο → α → Prop
  /-- Its answer, if it has returned. -/
  answer : σ → ℕ → ο → Option ω

/-- The operations are performed by calls that do not overlap. -/
inductive Serial (V : Service σ α ο ω) : List ο → List ω → σ → Prop
  | nil : Serial V [] [] V.system.init
  | call {ops : List ο} {answers : List ω} {s : σ} {op : ο} {answer : ω} {first : α}
      {accesses : List α} : Serial V ops answers s → V.start ops.length op first →
      (∀ a ∈ accesses,V.access ops.length op a) →
      V.answer (runFrom V.system s (first::accesses)) ops.length op=some answer →
      Serial V (ops++[op]) (answers++[answer]) (runFrom V.system s (first::accesses))

/-- What one call has to keep for the service to answer like a machine. -/
structure Implements (V : Service σ α ο ω) (M : Machine τ ο ω) (between : ℕ → τ → σ → Prop)
    (during : ℕ → ο → τ → σ → Prop) : Prop where
  /-- No call has been made. -/
  init : between 0 M.init V.system.init
  /-- Every operation can be started. -/
  starts : ∀ k op,∃ a,V.start k op a
  /-- A call starts between calls. -/
  start : ∀ k op t s a,between k t s → V.start k op a →
    ∃ s',V.system.step s a=some s' ∧ during k op t s'
  /-- An access stays inside the call. -/
  access : ∀ k op t s a s',during k op t s → V.access k op a → V.system.step s a=some s' →
    during k op t s'
  /-- The answer is that of the machine. -/
  answer : ∀ k op t s answer,during k op t s → V.answer s k op=some answer →
    answer=(M.perform t op).2 ∧ between (k+1) (M.perform t op).1 s
  /-- Every call can be brought to its return. -/
  returns : ∀ k op t s,during k op t s → ∃ accesses,(∀ a ∈ accesses,V.access k op a) ∧
    (V.answer (runFrom V.system s accesses) k op).isSome=true

variable {V : Service σ α ο ω} {M : Machine τ ο ω} {between : ℕ → τ → σ → Prop}
  {during : ℕ → ο → τ → σ → Prop}

/-- Any accesses of a call stay inside the call. -/
theorem Implements.during_run (h : Implements V M between during) {k : ℕ} {op : ο} {t : τ} {s : σ}
    (hd : during k op t s) {accesses : List α} (hall : ∀ a ∈ accesses,V.access k op a) :
    during k op t (runFrom V.system s accesses) := by
  induction accesses generalizing s with
  | nil => exact hd
  | cons a rest ih =>
    have hrest : ∀ b ∈ rest,V.access k op b := fun b hb => hall b (List.mem_cons_of_mem a hb)
    cases hs : V.system.step s a with
    | none => simpa only [runFrom,hs,Option.getD_none] using ih hd hrest
    | some s' =>
      have hd' := h.access k op t s a s' hd (hall a List.mem_cons_self) hs
      simpa only [runFrom,hs,Option.getD_some] using ih hd' hrest

/-- Serial answers are the answers of the machine. -/
theorem Implements.answers (h : Implements V M between during) {ops : List ο} {answers : List ω}
    {s : σ} (hs : Serial V ops answers s) :
    answers=M.answers (fun _ => true) ops ∧ between ops.length (M.final ops) s := by
  induction hs with
  | nil => exact ⟨rfl,h.init⟩
  | @call ops answers s op answer first accesses _ hstart hall hanswer ih =>
    obtain ⟨hanswers,hbetween⟩ := ih
    obtain ⟨s',hs',hd⟩ := h.start _ op _ s first hbetween hstart
    rw [runFrom,hs',Option.getD_some] at hanswer ⊢
    obtain ⟨hout,hnext⟩ := h.answer _ op _ _ answer (h.during_run hd hall) hanswer
    refine ⟨?_,?_⟩
    · rw [hanswers,hout]
      exact (M.answersFrom_append_singleton M.init ops op).symm
    · rw [List.length_append,Machine.final,M.finalFrom_append_singleton]
      exact hnext

/-- Every list of operations has a serial execution. -/
theorem Implements.total (h : Implements V M between during) (ops : List ο) :
    ∃ answers s,Serial V ops answers s := by
  induction ops using List.reverseRecOn with
  | nil => exact ⟨[],_,.nil⟩
  | append_singleton ops op ih =>
    obtain ⟨answers,s,hs⟩ := ih
    obtain ⟨first,hstart⟩ := h.starts ops.length op
    obtain ⟨s',hs',hd⟩ := h.start _ op _ s first (h.answers hs).2 hstart
    obtain ⟨accesses,hall,hreturn⟩ := h.returns _ op _ s' hd
    obtain ⟨answer,hanswer⟩ := Option.isSome_iff_exists.mp hreturn
    refine ⟨answers++[answer],_,.call hs hstart hall ?_⟩
    rw [runFrom,hs',Option.getD_some]
    exact hanswer

end Line64.SerialCalls
