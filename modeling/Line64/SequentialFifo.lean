import Line64.MpmcSerial
import Line64.SpscSerial

/-!
# The exclusive queues in sequential use

The MPMC queue and the SPSC queue of the same capacity are the same bounded
list, except for a pop whose destination is too small for the front. The
first removes the message all the same, the second keeps it.
-/

namespace Line64.SequentialFifo

open Result BoundedFifo Mealy SerialCalls

/-- An SPSC queue of the same capacity. -/
def spscRing (q : MpmcModel.Ring) : SpscModel.Ring :=
  ⟨q.capacity,if_neg (by have := q.two_le; omega)⟩

/-- Both queues in sequential use, compared with the bounded list. -/
structure Sequential (q : MpmcModel.Ring) (N : ℕ) : Prop where
  /-- Every list of calls can be executed on the MPMC queue. -/
  mpmc_total : ∀ calls,∃ answers s,Serial (MpmcSerial.service q N) calls answers s
  /-- It answers like a list whose pops always remove the front. -/
  mpmc_answers : ∀ calls answers s,Serial (MpmcSerial.service q N) calls answers s →
    answers=(fifo N q.capacity false).answers (fun _ => true) calls
  /-- Every list of calls can be executed on the SPSC queue. -/
  spsc_total : ∀ calls,∃ answers s,Serial (SpscSerial.service (spscRing q) N) calls answers s
  /-- It answers like a list that keeps a front which does not fit. -/
  spsc_answers : ∀ calls answers s,Serial (SpscSerial.service (spscRing q) N) calls answers s →
    answers=(fifo N q.capacity true).answers (fun _ => true) calls
  /-- Where every destination is large enough for the front the answers of
  both queues are identical. -/
  identical : ∀ calls answers answers' s s',
    (fifo N q.capacity false).AlongFrom Fits (fifo N q.capacity false).init calls →
    Serial (MpmcSerial.service q N) calls answers s →
    Serial (SpscSerial.service (spscRing q) N) calls answers' s' → answers=answers'

/-- Sequentially both queues are bounded lists that differ only on short
destinations. -/
theorem sequential_queues_are_fifo (q : MpmcModel.Ring) (N : ℕ) : Sequential q N := by
  have hmpmc := MpmcSerial.implements q N
  have hspsc := SpscSerial.implements (spscRing q) N
  refine ⟨hmpmc.total,fun _ _ _ h => (hmpmc.answers h).1,hspsc.total,
    fun _ _ _ h => (hspsc.answers h).1,?_⟩
  intro calls answers answers' s s' hfits h h'
  rw [(hmpmc.answers h).1,(hspsc.answers h').1]
  refine Machine.answers_eq_of_along ?_ ?_ _ hfits
  · rfl
  · exact fun f call => Fifo.perform_of_fits N q.capacity

/-- A short pop behind a push: the lists differ from there on. -/
example :
    (fifo 2 2 false).answers (fun _ => true) [.push [1,2],.pop [0],.pop [0,0],.empty]=
      [.pushed ⟨.success,1⟩,.popped [0] ⟨.messageTooLarge,0,1⟩,.popped [0,0] ⟨.empty,0,0⟩,
        .observed true] ∧
    (fifo 2 2 true).answers (fun _ => true) [.push [1,2],.pop [0],.pop [0,0],.empty]=
      [.pushed ⟨.success,1⟩,.popped [0] ⟨.messageTooLarge,0,1⟩,.popped [1,2] ⟨.success,2,1⟩,
        .observed true] := by decide

end Line64.SequentialFifo
