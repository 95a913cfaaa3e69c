import EmbeddedBuffers.Pool

/-!
# The pool leaves no trace

Whatever the schedule, the workers together do every job once, and every result carries the
index of its job. Putting the results in order therefore gives the results of the jobs one
after the other: `collect_run` for any schedule that is long enough, `map_eq` for the pool.
-/

namespace EmbeddedBuffers.Pool

variable {α β : Type}

/-- The results of the first jobs with their indices. -/
def results (f : α → β) (items : Array α) (count : Nat) : List (Nat × β) :=
  (items.toList.take count).zipIdx.map fun (item, i) => (i, f item)

theorem results_succ (f : α → β) {items : Array α} {count : Nat} {item : α}
    (h : items[count]? = some item) :
    results f items (count + 1) = results f items count ++ [(count, f item)] := by
  obtain ⟨hlt, rfl⟩ := Array.getElem?_eq_some_iff.1 h
  unfold results
  rw [← Array.length_toList] at hlt
  rw [List.take_succ_eq_append_getElem hlt, List.zipIdx_append, List.map_append,
    List.length_take_of_le (Nat.le_of_lt hlt)]
  simp

/-- Noting a result with one worker adds it to the results of all. -/
theorem flatten_modify_perm {γ : Type} (x : γ) (done : List (List γ)) {worker : Nat}
    (h : worker < done.length) :
    (done.modify worker (x :: ·)).flatten.Perm (x :: done.flatten) := by
  induction done generalizing worker with
  | nil => exact absurd h (Nat.not_lt_zero _)
  | cons own rest ih =>
      cases worker with
      | zero => exact .refl _
      | succ worker =>
          rw [List.modify_succ_cons, List.flatten_cons, List.flatten_cons]
          refine .trans ((ih (Nat.lt_of_succ_lt_succ h)).append_left own) ?_
          exact List.perm_middle

/-- What holds after some steps: the first jobs are done, by whichever workers. -/
structure Progress (f : α → β) (items : Array α) (workers : Nat) (s : State β) : Prop where
  next_le : s.next ≤ items.size
  workers_eq : s.done.length = workers
  done_perm : s.done.flatten.Perm (results f items s.next)

theorem progress_start (f : α → β) (items : Array α) (workers : Nat) :
    Progress f items workers (.start workers) := by
  refine ⟨Nat.zero_le _, List.length_replicate, ?_⟩
  simp [State.start, results]

theorem Progress.step {f : α → β} {items : Array α} {workers worker : Nat} {s : State β}
    (h : Progress f items workers s) (hw : worker < workers) :
    Progress f items workers (step f items s worker) ∧
      (step f items s worker).next = min (s.next + 1) items.size := by
  have hnext := h.next_le
  unfold Pool.step
  split
  · next hnone =>
    have hge := Array.getElem?_eq_none_iff.1 hnone
    exact ⟨h, by omega⟩
  · next item hitem =>
    have hlt := (Array.getElem?_eq_some_iff.1 hitem).1
    refine ⟨⟨hlt, ?_, ?_⟩, by dsimp only; omega⟩
    · rw [List.length_modify, h.workers_eq]
    · dsimp only
      rw [results_succ f hitem]
      refine .trans (flatten_modify_perm _ _ (h.workers_eq ▸ hw)) ?_
      exact .trans (h.done_perm.cons _) (List.perm_append_singleton _ _).symm

theorem Progress.run {f : α → β} {items : Array α} {workers : Nat} {s : State β}
    (h : Progress f items workers s) {schedule : List Nat}
    (hw : ∀ worker ∈ schedule, worker < workers) :
    Progress f items workers (schedule.foldl (Pool.step f items) s) ∧
      (schedule.foldl (Pool.step f items) s).next = min (s.next + schedule.length) items.size := by
  induction schedule generalizing s with
  | nil =>
      have hnext := h.next_le
      exact ⟨h, by simp; omega⟩
  | cons worker schedule ih =>
      rw [List.forall_mem_cons] at hw
      obtain ⟨hstep, hnext⟩ := h.step hw.1
      obtain ⟨hrun, heq⟩ := ih hstep hw.2
      refine ⟨hrun, ?_⟩
      rw [List.foldl_cons, heq, hnext, List.length_cons]
      omega

/-- Results with different indices have only one order. -/
theorem collect_eq {s : State β} {f : α → β} {items : Array α}
    (h : s.done.flatten.Perm (results f items items.size)) :
    collect s = items.toList.map f := by
  have hall : results f items items.size =
      items.toList.zipIdx.map fun (item, i) => (i, f item) := by
    rw [results, List.take_of_length_le (Nat.le_of_eq Array.length_toList)]
  have hperm : (s.done.flatMap List.reverse).Perm (results f items items.size) := by
    refine .trans ?_ h
    generalize s.done = done
    induction done with
    | nil => exact .refl _
    | cons own rest ih => exact (List.reverse_perm own).append ih
  have hasc : (results f items items.size).Pairwise fun a b => a.1 < b.1 := by
    rw [hall, List.pairwise_map, List.pairwise_iff_getElem]
    intro i j hi hj hij
    simpa using hij
  have hsorted : (s.done.flatMap List.reverse).mergeSort (fun a b => a.1 ≤ b.1) =
      results f items items.size := by
    refine List.Perm.eq_of_pairwise ?_
      (List.pairwise_mergeSort (by simp; omega) (by simp; omega) _)
      (hasc.imp fun hlt => decide_eq_true (Nat.le_of_lt hlt))
      ((List.mergeSort_perm _ _).trans hperm)
    intro a b ha hb hab hba
    have ha' := ((List.mergeSort_perm _ _).trans hperm).subset ha
    rw [hall] at ha' hb
    obtain ⟨⟨x, i⟩, hx, rfl⟩ := List.mem_map.1 ha'
    obtain ⟨⟨y, j⟩, hy, rfl⟩ := List.mem_map.1 hb
    obtain rfl : i = j := Nat.le_antisymm (of_decide_eq_true hab) (of_decide_eq_true hba)
    rw [List.mk_mem_zipIdx_iff_getElem?] at hx hy
    rw [Option.some.inj (hx.symm.trans hy)]
  rw [collect, hsorted, hall, List.map_map]
  show items.toList.zipIdx.map (f ∘ Prod.fst) = _
  rw [← List.map_map, List.zipIdx_map_fst]

/-- **Every schedule gives the same.** Once as many steps are taken as there are jobs, the
results are those of the jobs in order. -/
theorem collect_run (f : α → β) (items : List α) {workers : Nat} {schedule : List Nat}
    (hw : ∀ worker ∈ schedule, worker < workers) (hlen : items.length ≤ schedule.length) :
    collect (run f items.toArray workers schedule) = items.map f := by
  obtain ⟨hrun, hnext⟩ := (progress_start f items.toArray workers).run hw
  have hdone := hrun.done_perm
  rw [hnext] at hdone
  rw [show min ((State.start workers : State β).next + schedule.length) items.toArray.size =
    items.toArray.size by simp [State.start]; omega] at hdone
  exact collect_eq hdone

/-- Workers change nothing but the time that the jobs take. -/
theorem map_eq (threads : Nat) (f : α → β) (items : List α) :
    map threads f items = items.map f := by
  unfold map
  dsimp only
  split
  · rfl
  · next hmany =>
    refine collect_run f items ?_ ?_
    · intro worker hmem
      obtain ⟨i, -, rfl⟩ := List.mem_map.1 hmem
      exact Nat.mod_lt _ (by omega)
    · simp [inTurn]

end EmbeddedBuffers.Pool
