/-!
# Steps that may fail

What succeeds step by step has steps that succeed, and a list that is passed through has passed
with every element: what is proved about a function that may fail is proved about its steps.
-/

namespace EmbeddedBuffers

variable {α β γ ε ε' : Type}

/-- What succeeds step by step has steps that succeed. -/
theorem exists_of_bind_eq_ok {x : Except ε α} {f : α → Except ε β} {b : β}
    (h : (x >>= f) = .ok b) : ∃ a, x = .ok a ∧ f a = .ok b := by
  cases x with
  | error e => cases h
  | ok a => exact ⟨a, rfl, h⟩

/-- What is made step by step is made exactly if each step is. -/
theorem bind_eq_ok {x : Except ε α} {f : α → Except ε β} {b : β} :
    x >>= f = .ok b ↔ ∃ a, x = .ok a ∧ f a = .ok b := by
  refine ⟨exists_of_bind_eq_ok, ?_⟩
  rintro ⟨a, rfl, h⟩
  exact h

/-- What fails step by step has a first step that fails. -/
theorem bind_eq_error {x : Except ε α} {f : α → Except ε β} {e : ε} :
    x >>= f = .error e ↔ x = .error e ∨ ∃ a, x = .ok a ∧ f a = .error e := by
  cases x with
  | error e' =>
      show (Except.error e' : Except ε β) = .error e ↔ _
      simp
  | ok a =>
      show f a = .error e ↔ _
      simp

/-- Another error is no success. -/
theorem mapError_eq_ok {x : Except ε α} {f : ε → ε'} {a : α} :
    x.mapError f = .ok a ↔ x = .ok a := by
  cases x with
  | error e => exact iff_of_false (fun h => by cases h) (fun h => by cases h)
  | ok b =>
      show (Except.ok b : Except ε' α) = .ok a ↔ _
      rw [Except.ok.injEq, Except.ok.injEq]

/-- What is made of a value does not change an error. -/
theorem map_eq_error {f : α → β} {x : Except ε α} {e : ε} : x.map f = .error e ↔ x = .error e := by
  cases x with
  | error e' =>
      show (Except.error e' : Except ε β) = .error e ↔ _
      rw [Except.error.injEq, Except.error.injEq]
  | ok a => exact iff_of_false (fun h => by cases h) (fun h => by cases h)

/-- What is made of a value comes from a value. -/
theorem map_eq_ok {f : α → β} {x : Except ε α} {b : β} :
    x.map f = .ok b ↔ ∃ a, x = .ok a ∧ f a = b := by
  cases x with
  | error e => exact iff_of_false (fun h => by cases h) (fun ⟨_, h, _⟩ => by cases h)
  | ok a =>
      show (Except.ok (f a) : Except ε β) = .ok b ↔ _
      simp

/-- What is made of a value in two steps is made in one. -/
theorem map_map {f : α → β} {g : β → γ} {x : Except ε α} :
    (x.map f).map g = x.map fun a => g (f a) := by
  cases x <;> rfl

/-! ## Lists -/

/-- A list is passed through when every element passes. -/
theorem mapM_eq_ok {f : α → Except ε β} {l : List α} {bs : List β} :
    l.mapM f = .ok bs ↔ l.map f = bs.map .ok := by
  induction l generalizing bs with
  | nil => cases bs <;> simp [pure, Except.pure]
  | cons a l ih =>
      rw [List.mapM_cons, List.map_cons]
      cases ha : f a with
      | error e => cases bs <;> simp [bind, Except.bind]
      | ok b =>
          cases hl : l.mapM f with
          | error e =>
              have hne : ∀ bs' : List β, l.map f ≠ bs'.map .ok := by
                intro bs' heq
                rw [ih.2 heq] at hl
                cases hl
              cases bs <;> simp [bind, Except.bind, hne]
          | ok bs' =>
              rw [ih.1 hl]
              have hinj : ∀ l l' : List β,
                  l.map (Except.ok : β → Except ε β) = l'.map .ok ↔ l = l' :=
                fun _ _ => List.map_inj_right fun _ _ => Except.ok.inj
              cases bs <;> simp [bind, Except.bind, pure, Except.pure, hinj]

/-- A list of successes is a list of what they give. -/
theorem exists_map_eq_ok {f : α → Except ε β} {l : List α} :
    (∃ bs : List β, l.map f = bs.map .ok) ↔ ∀ a ∈ l, ∃ b, f a = .ok b := by
  constructor
  · rintro ⟨bs, hbs⟩ a ha
    have hmem := List.mem_map_of_mem (f := f) ha
    rw [hbs] at hmem
    obtain ⟨b, -, hb⟩ := List.mem_map.1 hmem
    exact ⟨b, hb.symm⟩
  · intro h
    induction l with
    | nil => exact ⟨[], rfl⟩
    | cons a l ih =>
        obtain ⟨⟨b, hb⟩, hrest⟩ := List.forall_mem_cons.1 h
        obtain ⟨bs, hbs⟩ := ih hrest
        exact ⟨b :: bs, by rw [List.map_cons, hb, hbs, List.map_cons]⟩

/-- What a list gives comes from its elements. -/
theorem exists_of_mem_mapM {f : α → Except ε β} {l : List α} {bs : List β}
    (h : l.mapM f = .ok bs) : ∀ b ∈ bs, ∃ a ∈ l, f a = .ok b := by
  intro b hb
  have hmem := List.mem_map_of_mem (f := (Except.ok : β → Except ε β)) hb
  rw [← mapM_eq_ok.1 h] at hmem
  exact List.mem_map.1 hmem

/-- Other errors of a list are those of its elements. -/
theorem mapM_mapError {f : α → Except ε β} {g : ε → ε'} {l : List α} :
    (l.mapM f).mapError g = l.mapM fun a => (f a).mapError g := by
  induction l with
  | nil => rfl
  | cons a l ih =>
      rw [List.mapM_cons, List.mapM_cons, ← ih]
      cases f a with
      | error e => rfl
      | ok b => cases l.mapM f <;> rfl

/-- A list fails as the first element does that fails. -/
theorem mapM_eq_error {f : α → Except ε β} {l : List α} {e : ε} : l.mapM f = .error e ↔
    ∃ front a rest, l = front ++ a :: rest ∧ (∀ x ∈ front, ∃ b, f x = .ok b) ∧ f a = .error e := by
  constructor
  · intro h
    induction l with
    | nil => cases h
    | cons a l ih =>
        rw [List.mapM_cons, bind_eq_error] at h
        rcases h with h | ⟨b, hb, h⟩
        · exact ⟨[], a, l, rfl, List.forall_mem_nil _, h⟩
        · rcases bind_eq_error.1 h with h | ⟨bs, -, h⟩
          · obtain ⟨front, a', rest, rfl, hfront, ha'⟩ := ih h
            exact ⟨a :: front, a', rest, rfl, List.forall_mem_cons.2 ⟨⟨b, hb⟩, hfront⟩, ha'⟩
          · cases h
  · rintro ⟨front, a, rest, rfl, hfront, ha⟩
    induction front with
    | nil =>
        rw [List.nil_append, List.mapM_cons, bind_eq_error]
        exact Or.inl ha
    | cons x front ih =>
        obtain ⟨⟨b, hb⟩, hfront⟩ := List.forall_mem_cons.1 hfront
        rw [List.cons_append, List.mapM_cons, bind_eq_error]
        exact Or.inr ⟨b, hb, bind_eq_error.2 (Or.inl (ih hfront))⟩

/-- A list that fails has an element that does. -/
theorem exists_of_mapM_eq_error {f : α → Except ε β} {l : List α} {e : ε}
    (h : l.mapM f = .error e) : ∃ a ∈ l, f a = .error e := by
  obtain ⟨front, a, rest, rfl, -, ha⟩ := mapM_eq_error.1 h
  exact ⟨a, List.mem_append_right _ List.mem_cons_self, ha⟩

/-- What is written of every element is read back from all of them. -/
theorem mapM_map_eq_pure {m : Type → Type} [Monad m] [LawfulMonad m] {write : α → β}
    {read : β → m γ} {found : α → γ} {l : List α} (h : ∀ a ∈ l, read (write a) = pure (found a)) :
    (l.map write).mapM read = pure (l.map found) := by
  induction l with
  | nil => rw [List.map_nil, List.mapM_nil, List.map_nil]
  | cons a l ih =>
      obtain ⟨ha, h⟩ := List.forall_mem_cons.1 h
      rw [List.map_cons, List.mapM_cons, ha, pure_bind, ih h, pure_bind, List.map_cons]

end EmbeddedBuffers
