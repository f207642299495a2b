import LatticeSurgery.CommandLine.Program
import LatticeSurgery.Proofs.Batch.Pool

/-!
# Batches, in whatever order things happen

The thread that starts a batch sends the commands, waits for the workers, the last one first, and then
receives the results. `Batch` adds these steps to the events of the pool. As long as the batch is not
over something can happen, whatever happens brings the end nearer, and what is returned in the end does
not depend on the order of the steps or on the number of workers (`interleavings_agree`).
-/

namespace LatticeSurgery

/-- A batch while it is under way: the workers with their commands and answers, the number of workers
that were waited for, and the results that were received. -/
structure Batch (ρ : Type) where
  pool : Pool ρ
  joined : Nat
  received : List (Nat × ρ)

namespace Batch

variable {ρ : Type} {job : Nat → Option ρ} {run : Nat → ρ} {seed jobs workers : Nat}
  {begun new : List Nat} {b b' : Batch ρ}

/-- A batch before the first command is sent. -/
def start (seed jobs workers : Nat) : Batch ρ := ⟨.start seed jobs workers, 0, []⟩

/-- Something that can happen in a batch, with the seeds of the jobs that begin. -/
inductive Step (job : Nat → Option ρ) (jobs : Nat) (b : Batch ρ) : List Nat → Batch ρ → Prop
  /-- An event of the pool. -/
  | event {e pool} (h : b.pool.act job e = some pool) :
      Step job jobs b (b.pool.begins e) { b with pool := pool }
  /-- When all commands are sent, the last worker that was not waited for yet is waited for. -/
  | join (hsent : b.pool.unsent = []) (h : b.pool.workers.reverse[b.joined]? = some .stopped) :
      Step job jobs b [] { b with joined := b.joined + 1 }
  /-- When all workers were waited for, the next answer is received, if more are wanted. -/
  | receive {r} (hjoined : b.joined = b.pool.workers.length) (hwanted : b.received.length < jobs)
      (h : b.pool.replies[b.received.length]? = some r) :
      Step job jobs b [] { b with received := b.received ++ [r] }

/-- What can happen in a batch one step after the other, with the seeds of the jobs that began. -/
inductive History (job : Nat → Option ρ) (jobs : Nat) (b : Batch ρ) : List Nat → Batch ρ → Prop
  | refl : History job jobs b [] b
  | step {begun new b' b''} (h : History job jobs b begun b') (hstep : Step job jobs b' new b'') :
      History job jobs b (begun ++ new) b''

/-- All commands were sent, all workers waited for, and all results received. -/
def IsOver (jobs : Nat) (b : Batch ρ) : Prop :=
  b.pool.unsent = [] ∧ b.joined = b.pool.workers.length ∧ b.received.length = jobs

/-- What is returned in the end. -/
def returned (b : Batch ρ) : List (Nat × ρ) := Ordered.sortOn Prod.fst b.received

/-- A bound on the number of steps to the end. -/
def remaining (jobs : Nat) (b : Batch ρ) : Nat :=
  b.pool.remaining + (b.pool.workers.length - b.joined) + (jobs - b.received.length)

/-! ## What holds at any time -/

/-- What holds of a batch at any time: the pool is in order, the workers that were waited for are
stopped, and what was received are the first answers. -/
structure Along (job : Nat → Option ρ) (seed jobs workers : Nat) (begun : List Nat) (b : Batch ρ) :
    Prop where
  pool : b.pool.Along job seed jobs workers begun
  joined : ∀ i < b.joined, b.pool.workers.reverse[i]? = some .stopped
  received : b.received <+: b.pool.replies

theorem along_start : (start seed jobs workers : Batch ρ).Along job seed jobs workers [] :=
  ⟨Pool.along_start, by simp [start], List.nil_prefix⟩

/-- Each step hands the invariant on and brings the end nearer. -/
theorem Along.step (hjob : ∀ i < jobs, job (seed + i) ≠ none)
    (h : b.Along job seed jobs workers begun) (hstep : Step job jobs b new b') :
    b'.Along job seed jobs workers (begun ++ new) ∧ b'.remaining jobs < b.remaining jobs := by
  cases hstep with
  | @event e pool hact =>
    obtain ⟨hlength, hstopped, hreplies⟩ := Pool.act_frame hact
    have hlt := Pool.remaining_lt hact
    refine ⟨⟨h.pool.act hjob hact, fun i hi => ?_, h.received.trans hreplies⟩, ?_⟩
    · have hstop := h.joined i hi
      have hbound := (List.getElem?_eq_some_iff.1 hstop).1
      rw [List.length_reverse] at hbound
      rw [List.getElem?_reverse hbound] at hstop
      rw [List.getElem?_reverse (by rwa [hlength]), hlength]
      exact hstopped _ hstop
    · simp only [remaining, hlength]
      omega
  | join hsent hstop =>
    have hbound := (List.getElem?_eq_some_iff.1 hstop).1
    rw [List.length_reverse] at hbound
    rw [List.append_nil]
    refine ⟨⟨h.pool, fun i hi => ?_, h.received⟩, ?_⟩
    · rcases Nat.lt_succ_iff_lt_or_eq.1 hi with hi | rfl
      · exact h.joined i hi
      · exact hstop
    · simp only [remaining]
      omega
  | @receive r hjoined hwanted hr =>
    rw [List.append_nil]
    refine ⟨⟨h.pool, h.joined, ?_⟩, ?_⟩
    · obtain ⟨rest, hrest⟩ := h.received
      rw [← hrest, List.getElem?_append_right (Nat.le_refl _), Nat.sub_self] at hr
      cases rest with
      | nil => cases hr
      | cons a rest =>
        cases hr
        exact ⟨rest, by rw [← hrest, List.append_assoc]; rfl⟩
    · simp only [remaining, List.length_append, List.length_singleton]
      omega

theorem History.along (hjob : ∀ i < jobs, job (seed + i) ≠ none)
    (h : History job jobs (start seed jobs workers) begun b) :
    b.Along job seed jobs workers begun := by
  induction h with
  | refl => exact along_start
  | step _ hstep ih => exact (ih.step hjob hstep).1

namespace Along

variable (h : b.Along job seed jobs workers begun) (hworkers : 1 ≤ workers)

include h

theorem joined_le : b.joined ≤ b.pool.workers.length := by
  by_contra hlt
  have hstop := h.joined b.pool.workers.length (by omega)
  rw [List.getElem?_eq_none (by simp)] at hstop
  cases hstop

/-- Once all workers were waited for, they are all over. -/
theorem over_of_joined (hjoined : b.joined = b.pool.workers.length) :
    ∀ w ∈ b.pool.workers, w.isOver = true := by
  intro w hw
  obtain ⟨i, hi, hiw⟩ := List.mem_iff_getElem.1 (List.mem_reverse.2 hw)
  have hstop := h.joined i (by rw [hjoined]; simpa using hi)
  rw [List.getElem?_eq_getElem hi, hiw] at hstop
  cases hstop
  rfl

include hworkers

/-- As long as the batch is not over, something can happen. -/
theorem exists_step (hover : ¬ b.IsOver jobs) : ∃ new b', Step job jobs b new b' := by
  by_cases hstuck : ∀ e, b.pool.act job e = none
  · have hdone := h.pool.over_of_stuck hstuck
    rw [Pool.isOver, Bool.and_eq_true, List.isEmpty_iff, List.all_eq_true] at hdone
    obtain ⟨hsent, hall⟩ := hdone
    rcases Nat.lt_or_eq_of_le h.joined_le with hlt | hjoined
    · have hlt' : b.joined < b.pool.workers.reverse.length := by rwa [List.length_reverse]
      refine ⟨[], _, .join hsent ?_⟩
      have hmem := List.mem_reverse.1 (List.getElem_mem hlt')
      rw [List.getElem?_eq_getElem hlt', h.pool.eq_stopped hmem (hall _ hmem)]
    · have hlength : b.pool.replies.length = jobs := by
        obtain ⟨hbegun, hperm⟩ := h.pool.replies_of_over hworkers hall
        simpa [hbegun] using hperm.length_eq
      have hwanted : b.received.length < jobs := by
        have hle := h.received.length_le
        have hne : b.received.length ≠ jobs := fun heq => hover ⟨hsent, hjoined, heq⟩
        omega
      exact ⟨[], _, .receive hjoined hwanted (List.getElem?_eq_getElem (by omega))⟩
  · push Not at hstuck
    obtain ⟨e, he⟩ := hstuck
    obtain ⟨pool, hact⟩ := Option.ne_none_iff_exists'.1 he
    exact ⟨_, _, .event hact⟩

/-- When the batch is over, every job was begun, every answer received, and the results are listed by
seed. -/
theorem returned_of_isOver (hrun : ∀ i < jobs, job (seed + i) = some (run (seed + i)))
    (hover : b.IsOver jobs) : begun = (List.range jobs).map (seed + ·) ∧
      b.received = b.pool.replies ∧
      b.returned = (List.range jobs).map fun i => (seed + i, run (seed + i)) := by
  obtain ⟨-, hjoined, hreceived⟩ := hover
  have hall := h.over_of_joined hjoined
  obtain ⟨hbegun, hperm⟩ := h.pool.replies_of_over hworkers hall
  have hlength : b.pool.replies.length = jobs := by simpa [hbegun] using hperm.length_eq
  have heq : b.received = b.pool.replies := h.received.eq_of_length (hreceived.trans hlength.symm)
  refine ⟨hbegun, heq, ?_⟩
  rw [returned, heq]
  exact h.pool.results_of_over hworkers hrun hall

end Along

/-- However the steps of a batch are interleaved, the batch can go on until it is over and gets there,
the jobs are begun once each, in the order of their seeds, and the results are returned by seed. The
order of events that the program takes has the same results. -/
theorem interleavings_agree (hworkers : 1 ≤ workers)
    (hrun : ∀ i < jobs, job (seed + i) = some (run (seed + i)))
    (h : History job jobs (start seed jobs workers) begun b) :
    (¬ b.IsOver jobs → ∃ new b', Step job jobs b new b') ∧
      (∀ new b', Step job jobs b new b' → b'.remaining jobs < b.remaining jobs) ∧
      begun <+: (List.range jobs).map (seed + ·) ∧
      (b.IsOver jobs → begun = (List.range jobs).map (seed + ·) ∧ b.received = b.pool.replies ∧
        b.returned = (List.range jobs).map fun i => (seed + i, run (seed + i))) ∧
      ((Pool.start seed jobs workers).run job).results =
        (List.range jobs).map fun i => (seed + i, run (seed + i)) := by
  have hjob : ∀ i < jobs, job (seed + i) ≠ none := fun i hi => by simp [hrun i hi]
  have halong := h.along hjob
  exact ⟨halong.exists_step hworkers, fun new b' hstep => (halong.step hjob hstep).2,
    halong.pool.begun_prefix, halong.returned_of_isOver hworkers hrun,
    Pool.results_run hworkers hrun⟩

/-- A measurement of one qubit that is placed at random on one of two patches. -/
def tossedProblem : Problem where
  circuit := Circuit.ofRotations "tossed" [⟨0, .measurement, .plus, SortedSet.ofList [0], ∅, ∅⟩] 1
  layout := ⟨SortedSet.ofList [⟨0, 0⟩, ⟨1, 0⟩], SortedSet.ofList [⟨0, 1⟩, ⟨1, 1⟩], ∅, ∅, ∅⟩
  policy := .random
  patches := none
  conf := {}

/-- Two workers solve the problem for two seeds, and the second answer is sent first. -/
theorem tossedProblem_interleaved : ∃ a₈ a₉, Program.job tossedProblem 8 = some a₈ ∧
    Program.job tossedProblem 9 = some a₉ ∧
    ∃ b, History (Program.job tossedProblem) 2 (start 8 2 2) [8, 9] b ∧ b.IsOver 2 ∧
      b.received = [(9, a₉), (8, a₈)] ∧ b.returned = [(8, a₈), (9, a₉)] := by
  have hsome : ∀ i < 2, (Program.job tossedProblem (8 + i)).isSome = true := by decide +kernel
  obtain ⟨a₈, h₈⟩ := Option.isSome_iff_exists.1 (hsome 0 (by decide))
  obtain ⟨a₉, h₉⟩ := Option.isSome_iff_exists.1 (hsome 1 (by decide))
  have sent : History (Program.job tossedProblem) 2 (start 8 2 2) []
      ⟨⟨[], [.job 8, .job 9, .stop, .stop], [.idle, .idle], []⟩, 0, []⟩ :=
    .step (.step (.step (.step .refl (.event (e := .send) rfl)) (.event (e := .send) rfl))
      (.event (e := .send) rfl)) (.event (e := .send) rfl)
  have taken : History (Program.job tossedProblem) 2 (start 8 2 2) [8, 9]
      ⟨⟨[], [.stop, .stop], [.busy 8, .busy 9], []⟩, 0, []⟩ :=
    .step (.step sent (.event (e := .take 0) rfl)) (.event (e := .take 1) rfl)
  have second : Pool.act (Program.job tossedProblem) ⟨[], [.stop, .stop], [.busy 8, .busy 9], []⟩
      (.finish 1) = some ⟨[], [.stop, .stop], [.busy 8, .idle], [(9, a₉)]⟩ := by
    simp [Pool.act, Pool.setWorker, h₉]
  have first : Pool.act (Program.job tossedProblem) ⟨[], [.stop, .stop], [.busy 8, .idle], [(9, a₉)]⟩
      (.finish 0) = some ⟨[], [.stop, .stop], [.idle, .idle], [(9, a₉), (8, a₈)]⟩ := by
    simp [Pool.act, Pool.setWorker, h₈]
  have half : History (Program.job tossedProblem) 2 (start 8 2 2) [8, 9]
      ⟨⟨[], [.stop, .stop], [.busy 8, .idle], [(9, a₉)]⟩, 0, []⟩ :=
    .step taken (.event (e := .finish 1) second)
  have answered : History (Program.job tossedProblem) 2 (start 8 2 2) [8, 9]
      ⟨⟨[], [.stop, .stop], [.idle, .idle], [(9, a₉), (8, a₈)]⟩, 0, []⟩ :=
    .step half (.event (e := .finish 0) first)
  have stopped : History (Program.job tossedProblem) 2 (start 8 2 2) [8, 9]
      ⟨⟨[], [], [.stopped, .stopped], [(9, a₉), (8, a₈)]⟩, 2, []⟩ :=
    .step (.step (.step (.step answered (.event (e := .take 0) rfl)) (.event (e := .take 1) rfl))
      (.join rfl rfl)) (.join rfl rfl)
  have received : History (Program.job tossedProblem) 2 (start 8 2 2) [8, 9]
      ⟨⟨[], [], [.stopped, .stopped], [(9, a₉), (8, a₈)]⟩, 2, [(9, a₉), (8, a₈)]⟩ :=
    .step (.step stopped (.receive rfl Nat.zero_lt_two rfl)) (.receive rfl Nat.one_lt_two rfl)
  obtain ⟨answer, rfl, rfl⟩ : ∃ answer : Nat → Except ProblemError Solution,
      answer 8 = a₈ ∧ answer 9 = a₉ := ⟨fun s => if s = 8 then a₈ else a₉, rfl, rfl⟩
  have hrun : ∀ i < 2, Program.job tossedProblem (8 + i) = some (answer (8 + i)) := by
    intro i hi
    rcases (by omega : i = 0 ∨ i = 1) with rfl | rfl
    · exact h₈
    · exact h₉
  obtain ⟨-, -, -, hreturned, -⟩ := interleavings_agree (Nat.le_succ 1) hrun received
  exact ⟨_, _, h₈, h₉, _, received, ⟨rfl, rfl, rfl⟩, rfl, (hreturned ⟨rfl, rfl, rfl⟩).2.2⟩

end Batch

end LatticeSurgery
