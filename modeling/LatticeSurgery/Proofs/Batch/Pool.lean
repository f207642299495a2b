import LatticeSurgery.Batch.Pool
import LatticeSurgery.Proofs.Collections
import Mathlib.Data.List.Basic
import Mathlib.Data.List.Perm.Basic

/-!
# What a worker pool has done at any time

Whatever the order of the events, the commands leave the queue in the order in which they were sent,
each worker is told to stop at most once, and the jobs that were begun are those that are under way and
those that were answered (`Pool.Along`). An event is possible until all workers are over
(`Along.over_of_stuck`), and then every job was answered once (`Along.replies_of_over`).
-/

namespace LatticeSurgery

/-- The seed of a command. -/
def Command.seed? : Command → Option Nat
  | job seed => some seed
  | stop => none

/-- The seed of the job that a worker runs. -/
def Worker.seed? : Worker → Option Nat
  | busy seed => some seed
  | idle | stopped | crashed => none

namespace Pool

variable {ρ : Type} {job : Nat → Option ρ} {p p' : Pool ρ} {e : Event} {seed jobs workers : Nat}
  {begun : List Nat}

/-! ## Events -/

/-- The seeds of the jobs that an event lets begin. -/
def begins (p : Pool ρ) : Event → List Nat
  | .take i =>
    match p.workers[i]?, p.queue with
    | some .idle, .job seed :: _ => [seed]
    | _, _ => []
  | .send | .finish _ => []

/-- What can happen in a pool, with the jobs that begin. -/
inductive Happens (job : Nat → Option ρ) : Pool ρ → Event → List Nat → Pool ρ → Prop
  | send {c us q ws rs} : Happens job ⟨c :: us, q, ws, rs⟩ .send [] ⟨us, q ++ [c], ws, rs⟩
  | begin {us s q v w rs} : Happens job ⟨us, .job s :: q, v ++ .idle :: w, rs⟩ (.take v.length) [s]
      ⟨us, q, v ++ .busy s :: w, rs⟩
  | stop {us q v w rs} : Happens job ⟨us, .stop :: q, v ++ .idle :: w, rs⟩ (.take v.length) []
      ⟨us, q, v ++ .stopped :: w, rs⟩
  | reply {us q v s w rs r} (h : job s = some r) :
      Happens job ⟨us, q, v ++ .busy s :: w, rs⟩ (.finish v.length) []
        ⟨us, q, v ++ .idle :: w, rs ++ [(s, r)]⟩
  | crash {us q v s w rs} (h : job s = none) :
      Happens job ⟨us, q, v ++ .busy s :: w, rs⟩ (.finish v.length) []
        ⟨us, q, v ++ .crashed :: w, rs⟩

theorem exists_of_getElem? {ws : List Worker} {i : Nat} {a : Worker} (h : ws[i]? = some a) :
    ∃ v w, ws = v ++ a :: w ∧ v.length = i := by
  obtain ⟨hi, rfl⟩ := List.getElem?_eq_some_iff.1 h
  obtain ⟨v, w, hws, hv, -⟩ := @List.exists_of_set _ i ws[i] ws hi
  exact ⟨v, w, hws, hv⟩

/-- The events are exactly those. -/
theorem act_eq_some_iff : p.act job e = some p' ↔ Happens job p e (p.begins e) p' := by
  constructor
  · intro h
    obtain ⟨us, q, ws, rs⟩ := p
    cases e with
    | send =>
      cases us with
      | nil => cases h
      | cons c us => cases h; exact .send
    | take i =>
      simp only [act] at h
      split at h
      · next s cs hi =>
        obtain ⟨v, w, rfl, rfl⟩ := exists_of_getElem? hi
        cases h
        simpa [begins, setWorker] using .begin
      · next cs hi =>
        obtain ⟨v, w, rfl, rfl⟩ := exists_of_getElem? hi
        cases h
        simpa [begins, setWorker] using .stop
      · cases h
    | finish i =>
      simp only [act] at h
      split at h
      · next s hi =>
        obtain ⟨v, w, rfl, rfl⟩ := exists_of_getElem? hi
        split at h
        · next r hr =>
          cases h
          simpa [begins, setWorker] using .reply hr
        · next hr =>
          cases h
          simpa [begins, setWorker] using .crash hr
      · cases h
  · intro h
    generalize p.begins e = begun at h
    cases h with
    | send => rfl
    | begin => simp [act, setWorker]
    | stop => simp [act, setWorker]
    | reply h => simp [act, setWorker, h]
    | crash h => simp [act, setWorker, h]

/-- An event changes no worker that is stopped, and takes no answer back. -/
theorem act_frame (hact : p.act job e = some p') : p'.workers.length = p.workers.length ∧
    (∀ i : Nat, p.workers[i]? = some Worker.stopped → p'.workers[i]? = some Worker.stopped) ∧
      p.replies <+: p'.replies := by
  have hother : ∀ {v w : List Worker} {a a' : Worker}, a ≠ .stopped → ∀ i : Nat,
      (v ++ a :: w)[i]? = some Worker.stopped → (v ++ a' :: w)[i]? = some Worker.stopped := by
    intro v w a a' ha i hi
    have hne : i ≠ v.length := by
      rintro rfl
      exact ha (by simpa using hi)
    grind
  rw [act_eq_some_iff] at hact
  generalize p.begins e = new at hact
  cases hact with
  | send => exact ⟨rfl, fun i hi => hi, List.prefix_rfl⟩
  | begin => exact ⟨by simp, hother (by simp), List.prefix_rfl⟩
  | stop => exact ⟨by simp, hother (by simp), List.prefix_rfl⟩
  | reply h => exact ⟨by simp, hother (by simp), List.prefix_append ..⟩
  | crash h => exact ⟨by simp, hother (by simp), List.prefix_rfl⟩

/-! ## What holds at any time -/

/-- What holds of a pool in which the jobs with the seeds `begun` were begun, in this order. -/
structure Along (job : Nat → Option ρ) (seed jobs workers : Nat) (begun : List Nat) (p : Pool ρ) :
    Prop where
  /-- The commands are taken in the order in which they are sent, the jobs among them are begun, and
  each of the others stops a worker. -/
  order : ∃ taken, taken ++ (p.queue ++ p.unsent) = (start seed jobs workers : Pool ρ).unsent ∧
    taken.filterMap Command.seed? = begun ∧ taken.count .stop = p.workers.count .stopped
  /-- No worker comes or goes. -/
  size : p.workers.length = workers
  /-- What was begun is under way or answered. -/
  kept : (p.workers.filterMap Worker.seed? ++ p.replies.map Prod.fst).Perm begun
  /-- The answers are right. -/
  answered : ∀ r ∈ p.replies, job r.1 = some r.2
  /-- No worker crashed. -/
  intact : .crashed ∉ p.workers

theorem along_start : (start seed jobs workers : Pool ρ).Along job seed jobs workers [] where
  order := ⟨[], rfl, rfl, by simp [start, List.count_replicate]⟩
  size := List.length_replicate
  kept := by simp [start, Worker.seed?]
  answered := by simp [start]
  intact := by simp [start]

/-- The seeds of the jobs of a batch. -/
theorem seeds_start : (start seed jobs workers : Pool ρ).unsent.filterMap Command.seed? =
    (List.range jobs).map (seed + ·) := by
  rw [start, List.filterMap_append, List.filterMap_map]
  simp [Function.comp_def, Command.seed?]

theorem count_stop_start :
    (start seed jobs workers : Pool ρ).unsent.count .stop = workers := by
  have hjobs : ((List.range jobs).map fun i => Command.job (seed + i)).count .stop = 0 :=
    List.count_eq_zero.2 (by simp)
  rw [start, List.count_append, hjobs, List.count_replicate_self, Nat.zero_add]

namespace Along

variable (h : p.Along job seed jobs workers begun)

include h

/-- The jobs are begun in the order of their seeds. -/
theorem begun_prefix : begun <+: (List.range jobs).map (seed + ·) := by
  obtain ⟨taken, hall, rfl, -⟩ := h.order
  have hseeds : (start seed jobs workers : Pool ρ).unsent.filterMap Command.seed? =
      (List.range jobs).map (seed + ·) := seeds_start
  rw [← hseeds, ← hall, List.filterMap_append]
  exact List.prefix_append ..

/-- A job that was begun is one of the batch. -/
theorem exists_of_mem_begun {s : Nat} (hs : s ∈ begun) : ∃ i < jobs, s = seed + i := by
  obtain ⟨i, hi, rfl⟩ := List.mem_map.1 (h.begun_prefix.subset hs)
  exact ⟨i, List.mem_range.1 hi, rfl⟩

/-- An event hands the invariant on. -/
theorem act (hjob : ∀ i < jobs, job (seed + i) ≠ none) (hact : p.act job e = some p') :
    p'.Along job seed jobs workers (begun ++ p.begins e) := by
  have hrange : ∀ s ∈ begun, job s ≠ none := by
    intro s hs
    obtain ⟨i, hi, rfl⟩ := h.exists_of_mem_begun hs
    exact hjob i hi
  obtain ⟨⟨taken, hall, hbegun, hstops⟩, hsize, hkept, hanswered, hintact⟩ := h
  rw [act_eq_some_iff] at hact
  generalize p.begins e = new at hact
  cases hact with
  | @send c us q ws rs =>
    rw [List.append_nil]
    refine ⟨⟨taken, ?_, hbegun, hstops⟩, hsize, hkept, hanswered, hintact⟩
    rw [← hall, List.append_assoc]
    rfl
  | @begin us s q v w rs =>
    refine ⟨⟨taken ++ [.job s], ?_, ?_, ?_⟩, ?_, ?_, hanswered, ?_⟩
    · rw [← hall, List.append_assoc]
      rfl
    · rw [List.filterMap_append, hbegun]
      rfl
    · simpa [List.count_append, List.count_cons] using hstops
    · simpa using hsize
    · rw [List.filterMap_append] at hkept ⊢
      exact (List.perm_middle.append_right _).trans
        ((hkept.cons s).trans (List.perm_append_singleton s begun).symm)
    · simpa using hintact
  | @stop us q v w rs =>
    rw [List.append_nil]
    refine ⟨⟨taken ++ [.stop], ?_, ?_, ?_⟩, ?_, ?_, hanswered, ?_⟩
    · rw [← hall, List.append_assoc]
      rfl
    · rw [List.filterMap_append, hbegun]
      exact List.append_nil begun
    · simp only [List.count_append, List.count_cons] at hstops ⊢
      simp only [hstops]
      rfl
    · simpa using hsize
    · rw [List.filterMap_append] at hkept ⊢
      exact hkept
    · simpa using hintact
  | @reply us q v s w rs r hr =>
    rw [List.append_nil]
    refine ⟨⟨taken, hall, hbegun, ?_⟩, ?_, ?_, ?_, ?_⟩
    · simpa [List.count_append, List.count_cons] using hstops
    · simpa using hsize
    · rw [List.map_append, ← List.append_assoc]
      rw [List.filterMap_append] at hkept ⊢
      exact (List.perm_append_singleton s _).trans
        ((List.perm_middle.append_right _).symm.trans hkept)
    · intro a ha
      rcases List.mem_append.1 ha with ha | ha
      · exact hanswered a ha
      · rwa [List.mem_singleton.1 ha]
    · simpa using hintact
  | @crash us q v s w rs hs =>
    exact absurd hs (hrange s (hkept.subset (by simp [Worker.seed?])))

/-- Where no event is possible, all commands are sent and all workers are over. -/
theorem over_of_stuck (hstuck : ∀ e, p.act job e = none) : p.isOver = true := by
  have hunsent : p.unsent = [] := by
    cases hu : p.unsent with
    | nil => rfl
    | cons c us => simpa [Pool.act, hu] using hstuck .send
  rw [isOver, hunsent, List.isEmpty_nil, Bool.true_and, List.all_eq_true]
  intro w hw
  obtain ⟨i, hi⟩ := List.mem_iff_getElem?.1 hw
  cases w with
  | busy s =>
    have hfinish := hstuck (.finish i)
    simp only [Pool.act, hi] at hfinish
    split at hfinish <;> cases hfinish
  | idle =>
    -- the queue is empty, so that all orders to stop are taken, and not by this worker
    have hqueue : p.queue = [] := by
      cases hq : p.queue with
      | nil => rfl
      | cons c q => cases c <;> simpa [Pool.act, hi, hq] using hstuck (.take i)
    obtain ⟨taken, hall, -, hstops⟩ := h.order
    rw [hqueue, hunsent, List.append_nil, List.append_nil] at hall
    rw [hall, count_stop_start, ← h.size, eq_comm, List.count_eq_length] at hstops
    cases hstops _ hw
  | stopped => rfl
  | crashed => rfl

theorem eq_stopped {w : Worker} (hw : w ∈ p.workers) (hover : w.isOver = true) : w = .stopped := by
  cases w with
  | idle | busy s => cases hover
  | stopped => rfl
  | crashed => exact absurd hw h.intact

/-- When all workers are over, every job was begun, and answered once. -/
theorem replies_of_over (hworkers : 1 ≤ workers) (hover : ∀ w ∈ p.workers, w.isOver = true) :
    begun = (List.range jobs).map (seed + ·) ∧ (p.replies.map Prod.fst).Perm begun := by
  have hstopped : ∀ w ∈ p.workers, w = .stopped := fun w hw => h.eq_stopped hw (hover w hw)
  obtain ⟨taken, hall, hbegun, hstops⟩ := h.order
  -- every order to stop was taken, and the last command is one
  have hrest : p.queue ++ p.unsent = [] := by
    have hcount : (p.queue ++ p.unsent).count .stop = 0 := by
      have htotal := congrArg (List.count Command.stop) hall
      rw [List.count_append, count_stop_start, hstops,
        List.count_eq_length.2 fun w hw => (hstopped w hw).symm, h.size] at htotal
      omega
    rcases List.eq_nil_or_concat' (p.queue ++ p.unsent) with hnil | ⟨front, c, hlast⟩
    · exact hnil
    · obtain ⟨k, rfl⟩ : ∃ k, workers = k + 1 := ⟨workers - 1, by omega⟩
      rw [hlast, start, List.replicate_succ', ← List.append_assoc] at hall
      dsimp only at hall
      rw [← List.append_assoc] at hall
      obtain rfl : c = .stop := by simpa using List.append_inj_right' hall rfl
      rw [hlast] at hcount
      simp at hcount
  have hidle : p.workers.filterMap Worker.seed? = [] := by
    rw [List.filterMap_eq_nil_iff]
    intro w hw
    rw [hstopped w hw]
    rfl
  rw [hrest, List.append_nil] at hall
  refine ⟨by rw [← hbegun, hall, seeds_start], ?_⟩
  simpa [hidle] using h.kept

/-- When all workers are over, the results are listed by seed. -/
theorem results_of_over {run : Nat → ρ} (hworkers : 1 ≤ workers)
    (hrun : ∀ i < jobs, job (seed + i) = some (run (seed + i)))
    (hover : ∀ w ∈ p.workers, w.isOver = true) :
    p.results = (List.range jobs).map fun i => (seed + i, run (seed + i)) := by
  obtain ⟨hbegun, hreplies⟩ := h.replies_of_over hworkers hover
  have hpaired : p.replies = (p.replies.map Prod.fst).map fun s => (s, run s) := by
    rw [List.map_map]
    refine (List.map_id _).symm.trans (List.map_congr_left fun r hr => Prod.ext rfl ?_)
    obtain ⟨i, hi, hs⟩ := h.exists_of_mem_begun (hreplies.subset (List.mem_map_of_mem hr))
    have hr' := h.answered r hr
    rw [hs, hrun i hi, ← hs] at hr'
    exact (Option.some.inj hr').symm
  refine Ordered.sortOn_eq_of_perm ?_ ?_
  · rw [hpaired]
    refine (hreplies.map _).trans ?_
    rw [hbegun, List.map_map]
    exact List.Perm.refl _
  · rw [List.pairwise_map]
    refine List.pairwise_lt_range.imp fun hlt => ?_
    exact decide_eq_true (Nat.add_lt_add_left hlt seed)

end Along

/-! ## A run -/

/-- A bound on the number of events that are still possible. -/
def remaining (p : Pool ρ) : Nat :=
  3 * p.unsent.length + 2 * p.queue.length + (p.workers.filterMap Worker.seed?).length

theorem remaining_lt (hact : p.act job e = some p') : p'.remaining < p.remaining := by
  rw [act_eq_some_iff] at hact
  generalize p.begins e = new at hact
  cases hact <;> simp [remaining, List.filterMap_cons, Worker.seed?] <;> omega

theorem remaining_le_eventBound (p : Pool ρ) : p.remaining ≤ p.eventBound :=
  Nat.add_le_add_left (List.length_filterMap_le ..) _

/-- The next event is possible. -/
theorem act_nextEvent? (hnext : p.nextEvent? = some e) : p.act job e ≠ none := by
  unfold nextEvent? at hnext
  split at hnext
  · cases hnext
    cases hu : p.unsent with
    | nil => simp_all
    | cons c us => simp [act, hu]
  · obtain ⟨⟨w, i⟩, hwi, hw⟩ := List.exists_of_findSome?_eq_some hnext
    rw [List.mem_zipIdx_iff_getElem?] at hwi
    cases w with
    | idle =>
      dsimp only at hw hwi
      split at hw
      · cases hw
      · next hq =>
        cases hw
        cases hqueue : p.queue with
        | nil => simp [hqueue] at hq
        | cons c q => cases c <;> simp [act, hwi, hqueue]
    | busy s =>
      cases hw
      dsimp only at hwi
      rw [act, hwi]
      dsimp only
      split <;> exact Option.some_ne_none _
    | stopped | crashed => cases hw

/-- There is a next event when one is possible. -/
theorem stuck_of_nextEvent? (hnext : p.nextEvent? = none) (e : Event) : p.act job e = none := by
  unfold nextEvent? at hnext
  split at hnext
  · cases hnext
  · next hu =>
    have hunsent : p.unsent = [] := by simpa using hu
    have hworker : ∀ {w : Worker} {i : Nat}, p.workers[i]? = some w →
        (∀ s, w ≠ .busy s) ∧ (w = .idle → p.queue = []) := by
      intro w i hi
      have hnone := List.findSome?_eq_none_iff.1 hnext (w, i) (List.mem_zipIdx_iff_getElem?.2 hi)
      cases w <;> simp_all
    rw [Option.eq_none_iff_forall_ne_some]
    intro p' hact
    rw [act_eq_some_iff] at hact
    generalize p.begins e = new at hact
    cases hact with
    | send => cases hunsent
    | @begin us s q v w rs => cases (hworker (i := v.length) (by simp)).2 rfl
    | @stop us q v w rs => cases (hworker (i := v.length) (by simp)).2 rfl
    | @reply us q v s w rs r hr => exact (hworker (i := v.length) (by simp)).1 s rfl
    | @crash us q v s w rs hs => exact (hworker (i := v.length) (by simp)).1 s rfl

/-- Enough events lead to a pool in which none is possible. -/
theorem runFor_spec (hjob : ∀ i < jobs, job (seed + i) ≠ none) {m : Nat} (hm : p.remaining ≤ m)
    (h : p.Along job seed jobs workers begun) :
    ∃ begun', (p.runFor job m).Along job seed jobs workers begun' ∧
      ∀ e, (p.runFor job m).act job e = none := by
  induction m generalizing p begun with
  | zero =>
    refine ⟨begun, h, fun e => ?_⟩
    rw [Option.eq_none_iff_forall_ne_some]
    intro p' hact
    have hlt : p'.remaining < p.remaining := remaining_lt hact
    omega
  | succ m ih =>
    rw [runFor]
    cases hnext : p.nextEvent? with
    | none => exact ⟨begun, h, stuck_of_nextEvent? hnext⟩
    | some e =>
      obtain ⟨p', hact⟩ := Option.ne_none_iff_exists'.1 (@act_nextEvent? _ job _ _ hnext)
      have hlt := remaining_lt hact
      rw [Option.bind_some, hact]
      exact ih (by omega) (h.act hjob hact)

/-- The run that lets the events happen in one order has the results of all jobs. -/
theorem results_run {run : Nat → ρ} (hworkers : 1 ≤ workers)
    (hrun : ∀ i < jobs, job (seed + i) = some (run (seed + i))) :
    ((start seed jobs workers).run job).results =
      (List.range jobs).map fun i => (seed + i, run (seed + i)) := by
  have hjob : ∀ i < jobs, job (seed + i) ≠ none := fun i hi => by simp [hrun i hi]
  obtain ⟨begun, halong, hstuck⟩ :=
    runFor_spec hjob (remaining_le_eventBound (start seed jobs workers)) along_start
  have hover := halong.over_of_stuck hstuck
  rw [isOver, Bool.and_eq_true, List.all_eq_true] at hover
  exact halong.results_of_over hworkers hrun hover.2

end Pool

end LatticeSurgery
