/-!
# Worker pool

Independent jobs on several workers. The workers share one counter: a worker takes the next
index, does the job and notes the result under its index, until the counter passes the
end. A schedule is the order in which the workers take their steps. The results are put
in the order of the jobs, so the schedule leaves no trace in them.
-/

namespace EmbeddedBuffers.Pool

/-- The shared counter and what every worker has done, its last job first. -/
structure State (β : Type) where
  next : Nat
  done : List (List (Nat × β))

/-- The start, with idle workers. -/
def State.start {β : Type} (workers : Nat) : State β := ⟨0, List.replicate workers []⟩

/-- One step of a worker: it takes the next index and does the job, if there is one. -/
def step {α β : Type} (f : α → β) (items : Array α) (s : State β) (worker : Nat) : State β :=
  match items[s.next]? with
  | none => s
  | some item =>
    ⟨s.next + 1, s.done.modify worker ((s.next, f item) :: ·)⟩

/-- The state after a schedule. -/
def run {α β : Type} (f : α → β) (items : Array α) (workers : Nat) (schedule : List Nat) :
    State β :=
  schedule.foldl (step f items) (.start workers)

/-- The results of all workers in the order of their indices. -/
def collect {β : Type} (s : State β) : List β :=
  ((s.done.flatMap List.reverse).mergeSort fun a b => a.1 ≤ b.1).map (·.2)

/-- The workers in turn, `steps` steps in all. -/
def inTurn (workers steps : Nat) : List Nat := (List.range steps).map (· % workers)

/-- Does a job for every item on up to `threads` workers; the results stand in the order
of the items. -/
def map {α β : Type} (threads : Nat) (f : α → β) (items : List α) : List β :=
  let workers := min (max 1 threads) items.length
  if workers ≤ 1 then items.map f
  else collect (run f items.toArray workers (inTurn workers items.length))

end EmbeddedBuffers.Pool
