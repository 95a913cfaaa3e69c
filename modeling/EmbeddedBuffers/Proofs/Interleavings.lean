import EmbeddedBuffers.Proofs.Pool
import Mathlib.Data.List.Induction
import Mathlib.Data.List.Perm.Basic

/-!
# Workers that overlap

A step of the pool is a whole job. Here a worker takes an index, does the job and notes the result
in three turns, between which the others take theirs, and it finds out that there is nothing left to
do by taking an index past the end. Counting what a worker has claimed as done already, every
interleaving is a schedule of the pool: `exists_run_of_interleave`. Main statement:
`interleave_exact`.
-/

namespace EmbeddedBuffers.Pool

variable {α β : Type}

/-- Where a worker stands in its loop. -/
inductive Stage (β : Type)
  /-- About to take an index. -/
  | idle
  /-- Has an index that it has not looked at. -/
  | holding (index : Nat)
  /-- Has done a job and not noted the result. -/
  | made (index : Nat) (result : β)
  /-- Has left the loop. -/
  | stopped
deriving DecidableEq, Repr

/-- A worker and its own results, the last one first. -/
structure Worker (β : Type) where
  stage : Stage β
  done : List (Nat × β)

/-- The shared counter and the workers. -/
structure Shared (β : Type) where
  next : Nat
  workers : List (Worker β)

namespace Worker

/-- One turn of a worker, with the counter before and behind it. -/
def turn (f : α → β) (items : Array α) (next : Nat) (own : Worker β) : Nat × Worker β :=
  match own.stage with
  | .idle => (next + 1, ⟨.holding next, own.done⟩)
  | .holding i =>
    match items[i]? with
    | some item => (next, ⟨.made i (f item), own.done⟩)
    | none => (next, ⟨.stopped, own.done⟩)
  | .made i result => (next, ⟨.idle, (i, result) :: own.done⟩)
  | .stopped => (next, own)

/-- The index of the job that a turn of the worker does. -/
def job? (items : Array α) (own : Worker β) : Option Nat :=
  match own.stage with
  | .holding i => if i < items.size then some i else none
  | _ => none

/-- The index of the job that the worker has taken and not noted. -/
def inFlight (items : Array α) (own : Worker β) : List Nat :=
  match own.stage with
  | .holding i => if i < items.size then [i] else []
  | .made i _ => [i]
  | _ => []

/-- The indices of the jobs that the worker has done. -/
def jobsDone (own : Worker β) : List Nat :=
  match own.stage with
  | .made i _ => i :: own.done.map (·.1)
  | _ => own.done.map (·.1)

/-- The results of the worker, that of the job in flight among them. -/
def claimed (f : α → β) (items : Array α) (own : Worker β) : List (Nat × β) :=
  match own.stage with
  | .holding i => (items[i]?.map fun item => (i, f item)).toList ++ own.done
  | .made i result => (i, result) :: own.done
  | _ => own.done

end Worker

namespace Shared

def start (workers : Nat) : Shared β := ⟨0, List.replicate workers ⟨.idle, []⟩⟩

/-- One turn of the worker of a number, if there is one. -/
def turn (f : α → β) (items : Array α) (s : Shared β) (worker : Nat) : Shared β :=
  match s.workers[worker]? with
  | none => s
  | some own => ⟨(own.turn f items s.next).1, s.workers.set worker (own.turn f items s.next).2⟩

/-- The indices of the jobs that the turns of a schedule do, in their order. -/
def jobs (f : α → β) (items : Array α) (s : Shared β) : List Nat → List Nat
  | [] => []
  | worker :: schedule =>
    (s.workers[worker]?.bind (·.job? items)).toList ++ jobs f items (s.turn f items worker) schedule

/-- All workers have left the loop. -/
def Finished (s : Shared β) : Prop := ∀ own ∈ s.workers, own.stage = .stopped

instance [DecidableEq β] (s : Shared β) : Decidable s.Finished :=
  inferInstanceAs (Decidable (∀ own ∈ s.workers, own.stage = .stopped))

/-- What the workers return. -/
def results (s : Shared β) : State β := ⟨s.next, s.workers.map (·.done)⟩

def inFlight (items : Array α) (s : Shared β) : List Nat := s.workers.flatMap (·.inFlight items)

/-- The indices in the private lists. -/
def noted (s : Shared β) : List Nat := s.workers.flatMap fun own => own.done.map (·.1)

/-- The pool in which every job that is taken is done. -/
def claimed (f : α → β) (items : Array α) (s : Shared β) : State β :=
  ⟨min s.next items.size, s.workers.map (·.claimed f items)⟩

end Shared

/-- The state after the turns of a schedule. -/
def interleave (f : α → β) (items : Array α) (workers : Nat) (schedule : List Nat) : Shared β :=
  schedule.foldl (Shared.turn f items) (.start workers)

variable {f : α → β} {items : Array α} {workers worker next : Nat} {own : Worker β}
  {s : Shared β} {schedule : List Nat}

/-! ## One turn -/

/-- A turn is that of one worker in its place. -/
theorem Shared.turn_cases (f : α → β) (items : Array α) (s : Shared β) (worker : Nat) :
    (s.workers[worker]? = none ∧ s.turn f items worker = s) ∨
    ∃ front own back, s.workers = front ++ own :: back ∧ front.length = worker ∧
      s.workers[worker]? = some own ∧
      s.turn f items worker =
        ⟨(own.turn f items s.next).1, front ++ (own.turn f items s.next).2 :: back⟩ := by
  unfold Shared.turn
  cases hown : s.workers[worker]? with
  | none => exact .inl ⟨rfl, rfl⟩
  | some own =>
      right
      obtain ⟨hlt, rfl⟩ := List.getElem?_eq_some_iff.1 hown
      refine ⟨s.workers.take worker, s.workers[worker], s.workers.drop (worker + 1), ?_,
        List.length_take_of_le (Nat.le_of_lt hlt), rfl, ?_⟩
      · rw [List.getElem_cons_drop, List.take_append_drop]
      · simp only [List.set_eq_take_append_cons_drop, if_pos hlt]

/-- Taking an index is a step of the pool; the other turns change nothing for it. -/
theorem Worker.claimed_turn (f : α → β) (items : Array α) (next : Nat) (own : Worker β) :
    own.stage = .idle ∧
        (own.turn f items next).2.claimed f items =
          (items[next]?.map fun item => (next, f item)).toList ++ own.claimed f items ∨
      own.stage ≠ .idle ∧ (own.turn f items next).1 = next ∧
        (own.turn f items next).2.claimed f items = own.claimed f items := by
  obtain ⟨stage, done⟩ := own
  cases stage with
  | idle => exact .inl ⟨rfl, rfl⟩
  | holding i =>
      refine .inr ⟨by simp, ?_⟩
      cases hitem : items[i]? <;> simp [turn, claimed, hitem]
  | made i result => exact .inr ⟨by simp, rfl, rfl⟩
  | stopped => exact .inr ⟨by simp, rfl, rfl⟩

theorem Shared.claimed_turn (f : α → β) (items : Array α) (s : Shared β) (worker : Nat) :
    (s.turn f items worker).claimed f items = s.claimed f items ∨
      worker < s.workers.length ∧
        (s.turn f items worker).claimed f items = step f items (s.claimed f items) worker := by
  obtain ⟨-, heq⟩ | ⟨front, own, back, hworkers, rfl, -, heq⟩ := s.turn_cases f items worker
  · exact .inl (congrArg _ heq)
  rw [heq]
  obtain ⟨hidle, hclaimed⟩ | ⟨-, hnext, hclaimed⟩ := own.claimed_turn f items s.next
  · have hturn : (own.turn f items s.next).1 = s.next + 1 := by simp [Worker.turn, hidle]
    right
    refine ⟨by simp [hworkers], ?_⟩
    unfold step Shared.claimed
    rw [hworkers, hturn]
    dsimp only
    rw [List.map_append, List.map_cons, hclaimed, List.map_append, List.map_cons]
    by_cases hlt : s.next < items.size
    · rw [Nat.min_eq_left (Nat.le_of_lt hlt), Nat.min_eq_left hlt, Array.getElem?_eq_getElem hlt]
      simp [List.modify_eq_take_cons_drop, List.drop_append]
    · -- an index past the end is no job, and the pool stays where it is
      have hge := Nat.le_of_not_lt hlt
      rw [Nat.min_eq_right hge, Nat.min_eq_right (Nat.le_succ_of_le hge),
        Array.getElem?_eq_none hge, Array.getElem?_eq_none (Nat.le_refl _)]
      rfl
  · left
    unfold Shared.claimed
    rw [hworkers, hnext]
    dsimp only
    rw [List.map_append, List.map_cons, hclaimed, List.map_append, List.map_cons]

theorem Shared.length_workers_turn : (s.turn f items worker).workers.length = s.workers.length := by
  unfold turn
  split
  · rfl
  · exact List.length_set

theorem Shared.length_workers_interleave :
    (interleave f items workers schedule).workers.length = workers := by
  induction schedule using List.reverseRecOn with
  | nil => exact List.length_replicate
  | append_singleton schedule worker ih =>
      rw [interleave, List.foldl_append]
      exact Shared.length_workers_turn.trans ih

/-- The jobs of an interleaving are handed out as in a schedule of the pool: that of the turns in
which an index is taken. -/
theorem exists_run_of_interleave (f : α → β) (items : Array α) (workers : Nat)
    (schedule : List Nat) :
    ∃ takes, (∀ worker ∈ takes, worker < workers) ∧
      (interleave f items workers schedule).claimed f items = run f items workers takes := by
  induction schedule using List.reverseRecOn with
  | nil =>
      refine ⟨[], by simp, ?_⟩
      simp [interleave, Shared.start, Shared.claimed, Worker.claimed, run, State.start]
  | append_singleton schedule worker ih =>
      obtain ⟨takes, htakes, hrun⟩ := ih
      have hturn := (interleave f items workers schedule).claimed_turn f items worker
      rw [hrun, Shared.length_workers_interleave] at hturn
      rw [interleave, List.foldl_append]
      obtain hstay | ⟨hworker, hstep⟩ := hturn
      · exact ⟨takes, htakes, hstay⟩
      · refine ⟨takes ++ [worker], ?_, ?_⟩
        · simpa [or_imp, forall_and] using ⟨htakes, hworker⟩
        · rw [run, List.foldl_append]
          exact hstep

theorem progress_interleave (f : α → β) (items : Array α) (workers : Nat) (schedule : List Nat) :
    Progress f items workers ((interleave f items workers schedule).claimed f items) := by
  obtain ⟨takes, htakes, hrun⟩ := exists_run_of_interleave f items workers schedule
  rw [hrun]
  exact ((progress_start f items workers).run htakes).1

/-! ## What is handed out -/

/-- What a worker has claimed is in flight or noted. -/
theorem Worker.map_claimed (f : α → β) (items : Array α) (own : Worker β) :
    (own.claimed f items).map (·.1) = own.inFlight items ++ own.done.map (·.1) := by
  obtain ⟨stage, done⟩ := own
  cases stage with
  | idle => rfl
  | holding i => by_cases hi : i < items.size <;> simp [claimed, inFlight, hi]
  | made i result => rfl
  | stopped => rfl

theorem map_results {count : Nat} (h : count ≤ items.size) :
    (results f items count).map (·.1) = List.range count := by
  rw [results, List.map_map]
  show (List.zipIdx _).map Prod.snd = _
  rw [List.zipIdx_map_snd, List.length_take_of_le (by simpa using h), List.range_eq_range']

/-- The indices in flight and the noted ones are those that were handed out, each once. -/
theorem partition_interleave (f : α → β) (items : Array α) (workers : Nat) (schedule : List Nat) :
    let s := interleave f items workers schedule
    (s.inFlight items ++ s.noted).Perm (List.range (min s.next items.size)) := by
  intro s
  have h := progress_interleave f items workers schedule
  have hperm := h.done_perm.map (·.1)
  rw [map_results h.next_le] at hperm
  refine .trans (List.flatMap_append_perm _ _ _) (.trans (.of_eq ?_) hperm)
  simp only [← Worker.map_claimed f]
  rw [Shared.claimed, List.map_flatten, List.map_map]
  rfl

/-! ## What is done -/

/-- A turn that does a job adds its index to those of the jobs done. -/
theorem Worker.jobsDone_turn (f : α → β) (items : Array α) (next : Nat) (own : Worker β) :
    (own.turn f items next).2.jobsDone = (own.job? items).toList ++ own.jobsDone := by
  obtain ⟨stage, done⟩ := own
  cases stage with
  | idle => rfl
  | holding i => by_cases hi : i < items.size <;> simp [turn, jobsDone, job?, hi]
  | made i result => rfl
  | stopped => rfl

theorem jobs_append_jobsDone (f : α → β) (items : Array α) (s : Shared β) (schedule : List Nat) :
    (s.jobs f items schedule ++ s.workers.flatMap (·.jobsDone)).Perm
      ((schedule.foldl (Shared.turn f items) s).workers.flatMap (·.jobsDone)) := by
  induction schedule generalizing s with
  | nil => exact .refl _
  | cons worker schedule ih =>
      refine .trans ?_ (ih (s.turn f items worker))
      rw [Shared.jobs]
      obtain ⟨hnone, heq⟩ | ⟨front, own, back, hworkers, -, hsome, heq⟩ :=
        s.turn_cases f items worker
      · rw [hnone, heq]
        rfl
      · rw [hsome, heq, hworkers]
        simp only [List.flatMap_append, List.flatMap_cons, Worker.jobsDone_turn, Option.bind_some]
        rw [List.perm_iff_count]
        intro i
        simp only [List.count_append]
        omega

/-! ## Leaving the loop -/

/-- A worker has taken only indices below the counter, and leaves the loop only when the counter has
passed the end. -/
def Worker.Behind (size next : Nat) (own : Worker β) : Prop :=
  match own.stage with
  | .holding i => i < next
  | .stopped => size ≤ next
  | _ => True

theorem Worker.Behind.mono {size next' : Nat} (h : own.Behind size next) (hle : next ≤ next') :
    own.Behind size next' := by
  obtain ⟨stage, done⟩ := own
  cases stage with
  | holding i => exact Nat.lt_of_lt_of_le h hle
  | stopped => exact Nat.le_trans h hle
  | _ => trivial

theorem Worker.Behind.turn (h : own.Behind items.size next) :
    next ≤ (own.turn f items next).1 ∧
      (own.turn f items next).2.Behind items.size (own.turn f items next).1 := by
  obtain ⟨stage, done⟩ := own
  cases stage with
  | idle => exact ⟨Nat.le_succ _, Nat.lt_succ_self _⟩
  | holding i =>
      simp only [Worker.turn]
      split
      · exact ⟨Nat.le_refl _, trivial⟩
      · next hnone =>
          have hi : i < next := h
          exact ⟨Nat.le_refl _, Nat.le_trans (Array.getElem?_eq_none_iff.1 hnone) (Nat.le_of_lt hi)⟩
  | made i result => exact ⟨Nat.le_refl _, trivial⟩
  | stopped => exact ⟨Nat.le_refl _, h⟩

def Shared.Behind (size : Nat) (s : Shared β) : Prop := ∀ own ∈ s.workers, own.Behind size s.next

theorem Shared.Behind.turn (h : s.Behind items.size) (worker : Nat) :
    (s.turn f items worker).Behind items.size := by
  obtain ⟨-, heq⟩ | ⟨front, own, back, hworkers, -, -, heq⟩ := s.turn_cases f items worker
  · rwa [heq]
  rw [heq]
  obtain ⟨hle, hown⟩ := (h own (by simp [hworkers])).turn (f := f)
  intro other hother
  rw [List.mem_append, List.mem_cons] at hother
  obtain hfront | rfl | hback := hother
  · exact (h other (by simp [hworkers, hfront])).mono hle
  · exact hown
  · exact (h other (by simp [hworkers, hback])).mono hle

theorem behind_interleave (f : α → β) (items : Array α) (workers : Nat) (schedule : List Nat) :
    (interleave f items workers schedule).Behind items.size := by
  induction schedule using List.reverseRecOn with
  | nil =>
      intro own hown
      obtain rfl := List.eq_of_mem_replicate hown
      trivial
  | append_singleton schedule worker ih =>
      rw [interleave, List.foldl_append]
      exact ih.turn worker

/-! ## Every interleaving ends -/

/-- The turns until a worker takes no job and leaves the loop. -/
def Worker.turnsLeft (size : Nat) (own : Worker β) : Nat :=
  match own.stage with
  | .idle => 2
  | .holding i => if i < size then 4 else 1
  | .made _ _ => 3
  | .stopped => 0

/-- The turns until all workers have left the loop: three for each job that is not taken, and what
each worker has left. -/
def Shared.turnsLeft (size : Nat) (s : Shared β) : Nat :=
  3 * (size - s.next) + (s.workers.map (·.turnsLeft size)).sum

theorem Worker.turnsLeft_turn (f : α → β) (items : Array α) (next : Nat)
    (h : own.stage ≠ .stopped) :
    3 * (items.size - (own.turn f items next).1) +
        (own.turn f items next).2.turnsLeft items.size + 1 =
      3 * (items.size - next) + own.turnsLeft items.size := by
  obtain ⟨stage, done⟩ := own
  cases stage with
  | idle => simp only [turn, turnsLeft]; split <;> omega
  | holding i => by_cases hi : i < items.size <;> simp [turn, turnsLeft, hi]
  | made i result => rfl
  | stopped => exact absurd rfl h

/-- A worker in the loop has a turn that brings the end nearer, so that any turns can be continued
to the end. -/
theorem exists_finished (f : α → β) (items : Array α) (s : Shared β) :
    ∃ more : List Nat, (more.foldl (Shared.turn f items) s).Finished := by
  -- on the turns that are left: as long as some worker is in the loop, let it take one
  induction hleft : s.turnsLeft items.size using Nat.strongRecOn generalizing s with
  | _ left ih =>
      by_cases hs : s.Finished
      · exact ⟨[], hs⟩
      simp only [Shared.Finished, not_forall] at hs
      obtain ⟨own, hown, hlive⟩ := hs
      obtain ⟨worker, hworker⟩ := List.mem_iff_getElem?.1 hown
      obtain ⟨hnone, -⟩ | ⟨front, own', back, hworkers, -, hsome, heq⟩ :=
        s.turn_cases f items worker
      · rw [hnone] at hworker
        cases hworker
      cases hworker.symm.trans hsome
      have hturn := own.turnsLeft_turn f items s.next hlive
      have hless : (s.turn f items worker).turnsLeft items.size < left := by
        rw [← hleft, heq, Shared.turnsLeft, Shared.turnsLeft, hworkers]
        simp only [List.map_append, List.map_cons, List.sum_append, List.sum_cons]
        omega
      obtain ⟨more, hmore⟩ := ih _ hless _ rfl
      exact ⟨worker :: more, hmore⟩

/-! ## What the workers return -/

/-- A worker that has left the loop has nothing in flight. -/
theorem Worker.eq_of_stopped (f : α → β) (items : Array α) (h : own.stage = .stopped) :
    own.claimed f items = own.done ∧ own.inFlight items = [] ∧
      own.jobsDone = own.done.map (·.1) := by
  obtain ⟨stage, done⟩ := own
  cases h
  exact ⟨rfl, rfl, rfl⟩

/-- When all workers have left the loop, the counter has passed the end. -/
theorem Shared.Finished.le_next (h : s.Finished) (hs : s.Behind items.size)
    (hworkers : 0 < s.workers.length ∨ items.size = 0) : items.size ≤ s.next := by
  obtain hpos | hzero := hworkers
  · have hown := List.getElem_mem hpos
    have hbehind := hs _ hown
    rw [Worker.Behind, h _ hown] at hbehind
    exact hbehind
  · omega

/-- When all workers have left the loop, each job has been done once, and the private lists hold the
results of all jobs. -/
theorem Shared.Finished.perm (h : (interleave f items workers schedule).Finished)
    (hworkers : 0 < workers ∨ items.size = 0) :
    ((Shared.start workers).jobs f items schedule).Perm (List.range items.size) ∧
      (interleave f items workers schedule).results.done.flatten.Perm
        (Pool.results f items items.size) := by
  have hnext : items.size ≤ (interleave f items workers schedule).next :=
    h.le_next (behind_interleave f items workers schedule)
      (by rwa [Shared.length_workers_interleave])
  have hpartition := partition_interleave f items workers schedule
  have hjobs := jobs_append_jobsDone f items (.start workers) schedule
  have hprogress := (progress_interleave f items workers schedule).done_perm
  dsimp only at hpartition
  change List.Perm _ ((interleave f items workers schedule).workers.flatMap _) at hjobs
  -- what follows is about any state with these properties
  generalize interleave f items workers schedule = s at *
  constructor
  · have hstart : (Shared.start workers : Shared β).workers.flatMap (·.jobsDone) = [] := by
      simp [Shared.start, Worker.jobsDone]
    have hflight : s.inFlight items = [] :=
      List.flatMap_eq_nil_iff.2 fun own hown => (Worker.eq_of_stopped f items (h own hown)).2.1
    have hdone : s.workers.flatMap (·.jobsDone) = s.noted :=
      List.flatMap_congr fun own hown => (Worker.eq_of_stopped f items (h own hown)).2.2
    rw [hstart, List.append_nil, hdone] at hjobs
    rw [hflight, List.nil_append, Nat.min_eq_right hnext] at hpartition
    exact hjobs.trans hpartition
  · have hclaimed : (s.claimed f items).done = s.results.done :=
      List.map_congr_left fun own hown => (Worker.eq_of_stopped f items (h own hown)).1
    have hall : (s.claimed f items).next = items.size := Nat.min_eq_right hnext
    rwa [hclaimed, hall] at hprogress

/-- **Workers that overlap lose, repeat and reorder nothing.** In every interleaving the indices in
flight and those in the private lists are the ones handed out so far, each once. Once all workers
have left the loop, each job has been done once, and the results in the order of their indices are
those of the jobs one after the other. Every interleaving can be continued until then. -/
theorem interleave_exact (threads : Nat) (f : α → β) (items : List α) (schedule : List Nat) :
    let workers := min (max 1 threads) items.length
    let s := interleave f items.toArray workers schedule
    (s.inFlight items.toArray ++ s.noted).Perm (List.range (min s.next items.length)) ∧
    (s.Finished →
      ((Shared.start workers).jobs f items.toArray schedule).Perm (List.range items.length) ∧
      collect s.results = map threads f items ∧ map threads f items = items.map f) ∧
    ∃ more, (interleave f items.toArray workers (schedule ++ more)).Finished := by
  intro workers s
  refine ⟨partition_interleave f items.toArray workers schedule, fun hfinished => ?_, ?_⟩
  · have hworkers : 0 < workers ∨ items.toArray.size = 0 := by
      rw [List.size_toArray]
      omega
    obtain ⟨hjobs, hdone⟩ := hfinished.perm hworkers
    refine ⟨hjobs, ?_, map_eq threads f items⟩
    rw [map_eq]
    exact collect_eq hdone
  · obtain ⟨more, hmore⟩ := exists_finished f items.toArray s
    exact ⟨more, by rwa [interleave, List.foldl_append]⟩

/-- While one worker holds the first of three jobs, the other one does the rest. -/
def overtaking : List Nat := [0, 1, 1, 1, 1, 1, 1, 1, 0, 1, 0, 0, 0]

theorem interleave_exact_overtaking :
    let s := interleave (· * 10) #[7, 8, 9] 2 overtaking
    s.Finished ∧ s.noted = [0, 2, 1] ∧ collect s.results = [70, 80, 90] := by
  have hfinished : (interleave (· * 10) #[7, 8, 9] 2 overtaking).Finished := by decide
  obtain ⟨-, hall, -⟩ := interleave_exact 2 (· * 10) [7, 8, 9] overtaking
  obtain ⟨-, hcollect, hmap⟩ := hall hfinished
  exact ⟨hfinished, by decide, hcollect.trans hmap⟩

end EmbeddedBuffers.Pool
