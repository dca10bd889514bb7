import ShmemUtils.Channel.Readiness

/-!
# The bound of the channel

A send may push only where the queue has room. `try_send_once` tests for room last; `try_send` and
`try_send_until` test it in their wait, which also ends when there are no receivers, and a receiver
made right after that sends them on to a full queue.
-/

namespace ShmemUtils.Channel

open ShmemUtils.Library ShmemUtils.Library.Monitor

variable {α : Type} {grow : ℕ → Option ℕ} {t : Tid} {s : Shared α} {capacity : ℕ} {c : State α}
  {tr : Trace α}

/-- The channel is bounded: a send that is about to push has room, the queue is not longer than its
first capacity, and no push has failed. -/
structure Bounded (capacity : ℕ) (c : State α) : Prop where
  room : ∀ {t h op}, c.threads t = .running (.op h op .transfer) → op.kind = .sender →
    c.shared.inner.queue.remainingCapacity ≠ 0
  length : c.shared.inner.queue.items.length ≤ capacity
  noPanic : ∀ {t h op}, op.kind = .sender →
    c.threads t ≠ .running (.op h op (.unlock .panicked))

/-- What the outline says of a state bounds the channel. -/
theorem bounded_of_holds (h : (readyOutline (some .space) capacity).Holds c) :
    Bounded capacity c where
  room {t h' op} ht hop := by
    obtain ⟨item, hitem⟩ := Op.exists_item hop
    exact room_of_knows hitem ((h.running ht).2 h' op _ rfl)
  length := (h.global rfl).2
  noPanic {t h' op} hop ht := by
    obtain ⟨item, hitem⟩ := Op.exists_item hop
    exact (h.running ht).2 h' op _ rfl (by rw [Op.side_of_item hitem]; rfl) rfl

/-- **A send never pushes onto a full queue** in a run where `receivers`, read again after the wait
on a full queue, is still zero or `dropping` is set. Where it is not, the send pushes onto a full
queue if it goes on at once. -/
theorem bounded_while_reads_agree
    (hrun : Run (Step (program grow)) (initial capacity) tr c) :
    (Throughout (Guarded (Agrees (some .space))) tr → Everywhere (Bounded capacity) tr c) ∧
      ∀ t l, c.threads t = .running l → ¬ Agrees (some .space) t l c.shared →
        ∃ c₁ c₂, Step (program grow) c (.run t) c₁ ∧ Step (program grow) c₁ (.run t) c₂ ∧
          ¬ Bounded capacity c₂ := by
  constructor
  · intro hok
    have hready := ready_of_run hrun hok
    exact ⟨bounded_of_holds hready.1.2, fun x hx => bounded_of_holds (hready.2 x hx).2⟩
  · intro t l ht hdisagrees
    obtain ⟨k, op, c₁, c₂, hop, hside, hstep, hstep', ht', hun⟩ :=
      transfer_of_disagrees grow ht hdisagrees
    have hside : op.side = .space := (Option.some.inj hside).symm
    refine ⟨c₁, c₂, hstep, hstep', fun hbounded => hbounded.room ht' ?_ ?_⟩
    · cases op <;> first | rfl | cases hside
    · simpa [Op.Unready, hside, Side.queueReady] using hun

/-- A sender fills the channel, the receiver is dropped, and the sender's second call has evaluated
its predicate. -/
def fillAndCall : List (Event ℕ) :=
  making ⟨0, 0⟩ 0 .sender ++ making ⟨0, 0⟩ 0 .receiver ++ calling ⟨0, 1⟩ 1 (.trySend 7) 9 ++
    dropping ⟨0, 0⟩ 2 4 ++ calling ⟨0, 1⟩ 1 (.trySend 8) 4

theorem bounded_without_receivers : ∃ tr, ∃ c : State ℕ,
    Run (Step (program fun _ => none)) (initial 1) tr c ∧ Everywhere (Bounded 1) tr c ∧
      c.shared.history.results.length = 2 := by
  obtain ⟨tr, c, hrun, hok, htest⟩ := exists_run_of_exec (program fun _ => none)
    (fun c i => decide (Guarded (Agrees (some .space)) c i)) (initial 1)
    (fillAndCall ++ runs ⟨0, 1⟩ 3)
    (fun c => c.shared.history.results.length = 2) (by decide)
  exact ⟨tr, c, hrun,
    (bounded_while_reads_agree hrun).1 fun x hx => of_decide_eq_true (hok x hx),
    of_decide_eq_true htest⟩

/-- A receiver that is made before the second read sends it on to the full queue. -/
theorem unbounded_after_make_receiver :
    ¬ ∀ tr (c : State ℕ), Run (Step (program fun _ => none)) (initial 1) tr c → Bounded 1 c := by
  intro h
  obtain ⟨tr, c, hrun, -, htest⟩ := exists_run_of_exec (program fun _ => none) (fun _ _ => true)
    (initial 1) (fillAndCall ++ making ⟨0, 0⟩ 0 .receiver ++ runs ⟨0, 1⟩ 2)
    (fun c => c.threads ⟨0, 1⟩ = .running (.op 1 (.trySend 8) .transfer) ∧
      c.shared.inner.queue.remainingCapacity = 0) (by decide)
  obtain ⟨ht, hfull⟩ := of_decide_eq_true htest
  exact (h tr c hrun).room ht rfl hfull

end ShmemUtils.Channel
