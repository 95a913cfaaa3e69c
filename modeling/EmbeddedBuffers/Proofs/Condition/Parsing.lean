import EmbeddedBuffers.Condition.Parser
import EmbeddedBuffers.Proofs.Condition.Grammar
import EmbeddedBuffers.Proofs.Results

/-!
# Reading derivations

The readers of the grammar by their nonterminals. What one of them reads is a derivation from its
nonterminal, and what its nonterminal derives is read, if the token behind does not go on with it.
Disjunctions and conjunctions are read alike and share their lemmas. Main statements:
`sound_read` and `complete_of_derives`.
-/

namespace EmbeddedBuffers.Condition

variable {nt : Nonterminal} {ts rest : List Token} {c : Condition} {ls : List Lexeme}

/-! ## The readers without their bounds -/

/-- What a nonterminal reads from the front of `ts`, and what it leaves. -/
def read : Nonterminal → List Token → Except Fault (Condition × List Token)
  | .or, ts => (parseOr ts).map Subtype.val
  | .and, ts => (parseAnd ts).map Subtype.val
  | .compare, ts => (parseCompare ts).map Subtype.val
  | .unary, ts => (parseUnary ts).map Subtype.val
  | .primary, ts => (parsePrimary ts).map Subtype.val

/-- The two operators that make chains. -/
inductive Junction
  | or | and
deriving DecidableEq, Repr

namespace Junction

def lexeme : Junction → Lexeme
  | .or => .orOr
  | .and => .andAnd

/-- The nonterminal of the chain. -/
def whole : Junction → Nonterminal
  | .or => .or
  | .and => .and

/-- The nonterminal of its members. -/
def member : Junction → Nonterminal
  | .or => .and
  | .and => .compare

def condition : Junction → Condition → Condition → Condition
  | .or => .or
  | .and => .and

def formula : Junction → Formula → Formula → Formula
  | .or => .or
  | .and => .and

/-- What is read after the first member. -/
def continued : Junction → Condition → List Token → Except Fault (Condition × List Token)
  | .or, a, ts => (continueOr a ts).map Subtype.val
  | .and, a, ts => (continueAnd a ts).map Subtype.val

variable (j : Junction)

theorem derives_first {f : Formula} (h : Derives j.member ls f) : Derives j.whole ls f := by
  cases j with
  | or => exact .orOne h
  | and => exact .andOne h

theorem derives_next {ms : List Lexeme} {f g : Formula} (hf : Derives j.whole ls f)
    (hg : Derives j.member ms g) : Derives j.whole (ls ++ j.lexeme :: ms) (j.formula f g) := by
  cases j with
  | or => exact .orMore hf hg
  | and => exact .andMore hf hg

theorem condition_formula (f g : Formula) :
    (j.formula f g).condition = j.condition f.condition g.condition := by
  cases j <;> rfl

theorem read_whole (ts : List Token) :
    read j.whole ts = read j.member ts >>= fun r => j.continued r.1 r.2 := by
  cases j with
  | or =>
      show (parseOr ts).map Subtype.val = (parseAnd ts).map Subtype.val >>= _
      rw [parseOr]
      cases parseAnd ts with
      | error f => rfl
      | ok r =>
          obtain ⟨⟨a, rest⟩, h⟩ := r
          dsimp only [Except.map, bind, Except.bind, continued]
          cases continueOr a rest <;> rfl
  | and =>
      show (parseAnd ts).map Subtype.val = (parseCompare ts).map Subtype.val >>= _
      rw [parseAnd]
      cases parseCompare ts with
      | error f => rfl
      | ok r =>
          obtain ⟨⟨a, rest⟩, h⟩ := r
          dsimp only [Except.map, bind, Except.bind, continued]
          cases continueAnd a rest <;> rfl

theorem continued_lexeme (a : Condition) (ts : List Token) :
    j.continued a (j.lexeme.token :: ts) =
      read j.member ts >>= fun r => j.continued (j.condition a r.1) r.2 := by
  cases j with
  | or =>
      show (continueOr a (.orOr :: ts)).map Subtype.val = (parseAnd ts).map Subtype.val >>= _
      rw [continueOr]
      cases parseAnd ts with
      | error f => rfl
      | ok r =>
          obtain ⟨⟨b, rest⟩, h⟩ := r
          dsimp only [Except.map, bind, Except.bind, continued, condition]
          cases continueOr (.or a b) rest <;> rfl
  | and =>
      show (continueAnd a (.andAnd :: ts)).map Subtype.val = (parseCompare ts).map Subtype.val >>= _
      rw [continueAnd]
      cases parseCompare ts with
      | error f => rfl
      | ok r =>
          obtain ⟨⟨b, rest⟩, h⟩ := r
          dsimp only [Except.map, bind, Except.bind, continued, condition]
          cases continueAnd (.and a b) rest <;> rfl

theorem continued_other {a : Condition} {ts : List Token}
    (h : ∀ t ∈ ts.head?, t ≠ j.lexeme.token) : j.continued a ts = .ok (a, ts) := by
  cases j with
  | or =>
      show (continueOr a ts).map Subtype.val = _
      rw [continueOr]
      · rfl
      · rintro rest rfl
        exact h _ rfl rfl
  | and =>
      show (continueAnd a ts).map Subtype.val = _
      rw [continueAnd]
      · rfl
      · rintro rest rfl
        exact h _ rfl rfl

end Junction

/-- After one operand the sign of a comparison asks for a second one, and for no third. -/
theorem read_compare (ts : List Token) :
    read .compare ts = read .unary ts >>= fun r =>
      match r.2 with
      | .comparison op :: rest => read .unary rest >>= fun r' =>
          match chained? r'.2 with
          | some next => .error (.chained next)
          | none => .ok (.compare op r.1 r'.1, r'.2)
      | _ => .ok r := by
  show (parseCompare ts).map Subtype.val = (parseUnary ts).map Subtype.val >>= _
  rw [parseCompare]
  cases parseUnary ts with
  | error f => rfl
  | ok r =>
      obtain ⟨⟨a, rest⟩, h⟩ := r
      rcases rest with - | ⟨t, rest⟩
      · rfl
      · cases t with
        | comparison op =>
            dsimp only [Except.map, bind, Except.bind, read]
            cases parseUnary rest with
            | error f => rfl
            | ok r' =>
                obtain ⟨⟨b, after⟩, h'⟩ := r'
                dsimp only
                cases chained? after <;> rfl
        | _ => rfl

theorem read_bang (ts : List Token) :
    read .unary (.bang :: ts) = read .unary ts >>= fun r => .ok (.not r.1, r.2) := by
  show (parseUnary (.bang :: ts)).map Subtype.val = (parseUnary ts).map Subtype.val >>= _
  rw [parseUnary]
  cases parseUnary ts <;> rfl

theorem read_unary (h : ∀ t ∈ ts.head?, t ≠ .bang) : read .unary ts = read .primary ts := by
  show (parseUnary ts).map Subtype.val = (parsePrimary ts).map Subtype.val
  rw [parseUnary]
  rintro rest rfl
  exact h _ rfl rfl

theorem read_openParen (ts : List Token) :
    read .primary (.openParen :: ts) = read .or ts >>= fun r =>
      match r.2 with
      | .closeParen :: rest => .ok (r.1, rest)
      | after => .error (.expected .closeParen after.head?) := by
  show (parsePrimary (.openParen :: ts)).map Subtype.val = (parseOr ts).map Subtype.val >>= _
  rw [parsePrimary]
  cases parseOr ts with
  | error f => rfl
  | ok r =>
      obtain ⟨⟨a, after⟩, h⟩ := r
      rcases after with - | ⟨t, after⟩
      · rfl
      · cases t <;> rfl

theorem read_primary (h : ∀ t ∈ ts.head?, t ≠ .openParen) :
    read .primary ts = (parseAtom ts).map Subtype.val := by
  show (parsePrimary ts).map Subtype.val = _
  rw [parsePrimary]
  rintro rest rfl
  exact h _ rfl rfl

/-- After `defined` stands a name, in parentheses or without them. -/
theorem exists_name_of_defined (h : (parseDefined ts).map Subtype.val = .ok (c, rest)) :
    ∃ name, c = .isDefined name ∧ (ts = .word name :: rest ∨
      ts = .openParen :: .word name :: .closeParen :: rest) := by
  unfold parseDefined at h
  split at h
  · cases h
    exact ⟨_, rfl, Or.inl rfl⟩
  · cases h
    exact ⟨_, rfl, Or.inr rfl⟩
  all_goals cases h

theorem atom_defined (ts : List Token) : (parseAtom (.word "defined" :: ts)).map Subtype.val =
    (parseDefined ts).map Subtype.val := by
  unfold parseAtom
  dsimp only
  rw [if_pos rfl]
  cases parseDefined ts <;> rfl

/-- Another word is a name, if it is not called. -/
theorem atom_name {name : String} (hname : name ≠ "defined")
    (h : ∀ t ∈ ts.head?, t ≠ .openParen) :
    (parseAtom (.word name :: ts)).map Subtype.val = .ok (.reference name, ts) := by
  unfold parseAtom
  dsimp only
  rw [if_neg hname]
  rcases ts with - | ⟨t, ts⟩
  · rfl
  · cases t with
    | openParen => exact absurd rfl (h _ rfl)
    | _ => rfl

theorem atom_call {name : String} (hname : name ≠ "defined") (ts : List Token) :
    parseAtom (.word name :: .openParen :: ts) = .error (.call name) := by
  unfold parseAtom
  dsimp only
  rw [if_neg hname]

/-- Every reader takes something. -/
theorem length_lt_of_read (h : read nt ts = .ok (c, rest)) : rest.length < ts.length := by
  have hval {x : Except Fault (Parsed ts)} (hx : x.map Subtype.val = .ok (c, rest)) :
      rest.length < ts.length := by
    cases x with
    | error f => cases hx
    | ok r =>
        obtain ⟨r, hr⟩ := r
        cases hx
        exact hr
  cases nt <;> exact hval h

/-! ## What is read is derived -/

/-- What a nonterminal reads from the front of lexemes is one of its derivations. -/
def Sound (nt : Nonterminal) (ls : List Lexeme) : Prop :=
  ∀ c rest, read nt (ls.map Lexeme.token) = .ok (c, rest) → ∃ used after f,
    ls = used ++ after ∧ rest = after.map Lexeme.token ∧ Derives nt used f ∧ f.condition = c

/-- A sign is the token of one lexeme alone. -/
theorem Lexeme.eq_of_token {l m : Lexeme} (h : l.token = m.token) (hm : ∀ n, m ≠ .number n) :
    l = m := by
  cases m with
  | number n => exact absurd rfl (hm n)
  | _ =>
      cases l <;> cases h
      rfl

theorem exists_cons_of_map_token {m : Lexeme} (hm : ∀ n, m ≠ .number n)
    (h : ls.map Lexeme.token = m.token :: ts) :
    ∃ tail, ls = m :: tail ∧ ts = tail.map Lexeme.token := by
  obtain ⟨l, tail, rfl, hl, rfl⟩ := List.map_eq_cons_iff.1 h
  exact ⟨tail, by rw [Lexeme.eq_of_token hl hm], rfl⟩

/-- Lexemes that a sign does not start have other tokens in front. -/
theorem forall_head?_token_ne {m : Lexeme} (hm : ∀ n, m ≠ .number n)
    (h : ¬ ∃ tail, ls = m :: tail) : ∀ t ∈ (ls.map Lexeme.token).head?, t ≠ m.token := by
  rintro t ht rfl
  obtain ⟨ts, hts⟩ := List.head?_eq_some_iff.1 ht
  obtain ⟨tail, hls, -⟩ := exists_cons_of_map_token hm hts
  exact h ⟨tail, hls⟩

namespace Junction

variable (j : Junction)

/-- A chain goes on with further members of the same derivation. -/
theorem sound_continued (hmember : ∀ ms, ms.length < ls.length → Sound j.member ms)
    {used : List Lexeme} {f : Formula} (hf : Derives j.whole used f)
    (h : j.continued f.condition (ls.map Lexeme.token) = .ok (c, rest)) :
    ∃ more after g, ls = more ++ after ∧ rest = after.map Lexeme.token ∧
      Derives j.whole (used ++ more) g ∧ g.condition = c := by
  -- on the lexemes that are left: every member takes some, and what was derived before grows
  induction hn : ls.length using Nat.strongRecOn generalizing ls used f with
  | ind n ih =>
      by_cases hnext : ∃ tail, ls = j.lexeme :: tail
      · obtain ⟨tail, rfl⟩ := hnext
        rw [List.map_cons, continued_lexeme] at h
        obtain ⟨⟨b, mid⟩, hread, h⟩ := exists_of_bind_eq_ok h
        obtain ⟨ms, after, g, rfl, rfl, hg, rfl⟩ := hmember tail (by simp) b mid hread
        rw [← condition_formula] at h
        have hshort : after.length < n := by
          rw [← hn, List.length_cons, List.length_append]
          omega
        obtain ⟨more, last, k, rfl, hrest, hk, hc⟩ := ih after.length hshort
          (fun ms' hms' => hmember ms' (by rw [hn]; omega)) (j.derives_next hf hg) h rfl
        refine ⟨j.lexeme :: ms ++ more, last, k, ?_, hrest, ?_, hc⟩
        · simp
        · simpa using hk
      · have hsign : ∀ n, j.lexeme ≠ .number n := by cases j <;> simp [lexeme]
        rw [j.continued_other (forall_head?_token_ne hsign hnext)] at h
        cases h
        exact ⟨[], ls, f, rfl, rfl, by simpa using hf, rfl⟩

theorem sound_whole (hfirst : Sound j.member ls)
    (hmember : ∀ ms, ms.length < ls.length → Sound j.member ms) : Sound j.whole ls := by
  intro c rest h
  rw [read_whole] at h
  obtain ⟨⟨a, mid⟩, hread, h⟩ := exists_of_bind_eq_ok h
  obtain ⟨used, after, f, rfl, rfl, hf, rfl⟩ := hfirst a mid hread
  obtain ⟨more, last, g, rfl, hrest, hg, hc⟩ := j.sound_continued
    (fun ms hms => hmember ms (by rw [List.length_append]; omega)) (j.derives_first hf) h
  exact ⟨used ++ more, last, g, by rw [List.append_assoc], hrest, hg, hc⟩

end Junction

/-- The reader refuses a third operand, which no rule derives. -/
theorem sound_compare (hfirst : Sound .unary ls)
    (hsecond : ∀ ms, ms.length < ls.length → Sound .unary ms) : Sound .compare ls := by
  intro c rest h
  rw [read_compare] at h
  obtain ⟨⟨a, mid⟩, hread, h⟩ := exists_of_bind_eq_ok h
  obtain ⟨used, after, f, rfl, rfl, hf, rfl⟩ := hfirst a mid hread
  dsimp only at h
  split at h
  · next op tail heq =>
    obtain ⟨ms, rfl, rfl⟩ := exists_cons_of_map_token (m := .comparison op) (by simp) heq
    obtain ⟨⟨b, mid'⟩, hread', h⟩ := exists_of_bind_eq_ok h
    have hshort : ms.length < (used ++ .comparison op :: ms).length := by
      rw [List.length_append, List.length_cons]
      omega
    obtain ⟨used', after, g, rfl, rfl, hg, rfl⟩ := hsecond ms hshort b mid' hread'
    dsimp only at h
    split at h
    · cases h
    · cases h
      exact ⟨used ++ .comparison op :: used', after, _, by simp, rfl, .compareTwo op hf hg, rfl⟩
  · cases h
    exact ⟨used, after, f, rfl, rfl, .compareOne hf, rfl⟩

theorem sound_unary (hfirst : Sound .primary ls)
    (hsecond : ∀ ms, ms.length < ls.length → Sound .unary ms) : Sound .unary ls := by
  intro c rest h
  by_cases hbang : ∃ ms, ls = .bang :: ms
  · obtain ⟨ms, rfl⟩ := hbang
    rw [List.map_cons, Lexeme.token, read_bang] at h
    obtain ⟨⟨a, mid⟩, hread, h⟩ := exists_of_bind_eq_ok h
    obtain ⟨used, after, f, rfl, rfl, hf, rfl⟩ := hsecond ms (by simp) a mid hread
    cases h
    exact ⟨.bang :: used, after, _, rfl, rfl, .not hf, rfl⟩
  · rw [read_unary (forall_head?_token_ne (by simp) hbang)] at h
    obtain ⟨used, after, f, hls, hrest, hf, hc⟩ := hfirst c rest h
    exact ⟨used, after, f, hls, hrest, .operand hf, hc⟩

theorem sound_defined (h : (parseDefined (ls.map Lexeme.token)).map Subtype.val = .ok (c, rest)) :
    ∃ used after f, ls = used ++ after ∧ rest = after.map Lexeme.token ∧
      Derives .primary (.word "defined" :: used) f ∧ f.condition = c := by
  obtain ⟨name, rfl, hname | hname⟩ := exists_name_of_defined h
  · obtain ⟨after, rfl, hrest⟩ := exists_cons_of_map_token (m := .word name) (by simp) hname
    exact ⟨[.word name], after, _, rfl, hrest, .defined name, rfl⟩
  · obtain ⟨inner, rfl, hinner⟩ := exists_cons_of_map_token (m := .openParen) (by simp) hname
    obtain ⟨tail, rfl, htail⟩ :=
      exists_cons_of_map_token (m := .word name) (by simp) hinner.symm
    obtain ⟨after, rfl, hrest⟩ := exists_cons_of_map_token (m := .closeParen) (by simp) htail.symm
    exact ⟨[.openParen, .word name, .closeParen], after, _, rfl, hrest, .definedParens name, rfl⟩

/-- Numbers, with their sign, and words are derived as they are read. -/
theorem sound_atom (h : (parseAtom (ls.map Lexeme.token)).map Subtype.val = .ok (c, rest)) :
    ∃ used after f, ls = used ++ after ∧ rest = after.map Lexeme.token ∧
      Derives .primary used f ∧ f.condition = c := by
  rcases ls with - | ⟨l, ls⟩
  · cases h
  · cases l with
    | number n =>
        cases h
        exact ⟨[.number n], ls, _, rfl, rfl, .number n, rfl⟩
    | minus =>
        rcases ls with - | ⟨l, ls⟩
        · cases h
        · cases l with
          | number n =>
              cases h
              refine ⟨[.minus, .number n], ls, _, rfl, rfl, .negative n, ?_⟩
              rw [Formula.condition, Int64.ofInt_neg]
              rfl
          | _ => cases h
    | word name =>
        by_cases hname : name = "defined"
        · subst hname
          rw [List.map_cons, Lexeme.token, atom_defined] at h
          obtain ⟨used, after, f, rfl, hrest, hf, hc⟩ := sound_defined h
          exact ⟨.word "defined" :: used, after, f, rfl, hrest, hf, hc⟩
        · rw [List.map_cons, Lexeme.token] at h
          by_cases hcall : ∃ ms, ls = .openParen :: ms
          · obtain ⟨ms, rfl⟩ := hcall
            rw [List.map_cons, Lexeme.token, atom_call hname] at h
            cases h
          · rw [atom_name hname (forall_head?_token_ne (by simp) hcall)] at h
            cases h
            exact ⟨[.word name], ls, _, rfl, rfl, .name hname, rfl⟩
    | _ => cases h

theorem sound_primary (hbelow : ∀ ms, ms.length < ls.length → Sound .or ms) :
    Sound .primary ls := by
  intro c rest h
  by_cases hopen : ∃ ms, ls = .openParen :: ms
  · obtain ⟨ms, rfl⟩ := hopen
    rw [List.map_cons, Lexeme.token, read_openParen] at h
    obtain ⟨⟨a, mid⟩, hread, h⟩ := exists_of_bind_eq_ok h
    obtain ⟨used, after, f, rfl, rfl, hf, rfl⟩ := hbelow ms (by simp) a mid hread
    dsimp only at h
    split at h
    · next tail heq =>
      obtain ⟨last, rfl, rfl⟩ := exists_cons_of_map_token (m := .closeParen) (by simp) heq
      cases h
      exact ⟨.openParen :: used ++ [.closeParen], last, f, by simp, rfl, .parens hf, rfl⟩
    · cases h
  · rw [read_primary (forall_head?_token_ne (by simp) hopen)] at h
    exact sound_atom h

/-- **What is read is derived**, for every nonterminal. -/
theorem sound_read (nt : Nonterminal) (ls : List Lexeme) : Sound nt ls := by
  induction hn : ls.length using Nat.strongRecOn generalizing nt ls with
  | ind n ih =>
      -- each nonterminal reads the next one from the same lexemes and any other from fewer
      have hbelow (nt : Nonterminal) (ms : List Lexeme) (hms : ms.length < ls.length) :
          Sound nt ms := ih ms.length (hn ▸ hms) nt ms rfl
      have hprimary := sound_primary (hbelow .or)
      have hunary := sound_unary hprimary (hbelow .unary)
      have hcompare := sound_compare hunary (hbelow .unary)
      have hand := Junction.and.sound_whole hcompare (hbelow .compare)
      have hor := Junction.or.sound_whole hand (hbelow .and)
      cases nt with
      | or => exact hor
      | and => exact hand
      | compare => exact hcompare
      | unary => exact hunary
      | primary => exact hprimary

/-! ## What is derived is read -/

/-- The tokens behind a derivation that do not go on with it. Those that make a longer chain are
among them: the chain goes on where the derivation ends. -/
def Nonterminal.Closes : Nonterminal → Token → Prop
  | .or, t => t ≠ .andAnd ∧ (∀ op, t ≠ .comparison op) ∧ t ≠ .openParen
  | .and, t | .compare, t => (∀ op, t ≠ .comparison op) ∧ t ≠ .openParen
  | .unary, t | .primary, t => t ≠ .openParen

/-- What a nonterminal makes of the tokens behind one of its derivations. -/
def finish : Nonterminal → Condition → List Token → Except Fault (Condition × List Token)
  | .or, a, ts => Junction.or.continued a ts
  | .and, a, ts => Junction.and.continued a ts
  | _, a, ts => .ok (a, ts)

/-- A derivation is read, whatever follows that does not go on with it. -/
def Complete (nt : Nonterminal) (ls : List Lexeme) (f : Formula) : Prop :=
  ∀ rest : List Token, (∀ t ∈ rest.head?, nt.Closes t) →
    read nt (ls.map Lexeme.token ++ rest) = finish nt f.condition rest

namespace Junction

variable {j : Junction} {ms : List Lexeme} {f g : Formula}

theorem closes_lexeme (j : Junction) : j.whole.Closes j.lexeme.token := by
  cases j with
  | or => exact ⟨by simp [lexeme, Lexeme.token], by simp [lexeme, Lexeme.token],
      by simp [lexeme, Lexeme.token]⟩
  | and => exact ⟨by simp [lexeme, Lexeme.token], by simp [lexeme, Lexeme.token]⟩

theorem closes_member {t : Token} (h : j.whole.Closes t) : j.member.Closes t := by
  cases j with
  | or => exact h.2
  | and => exact h

/-- Behind a whole chain its last member does not go on either. -/
theorem finish_member (h : ∀ t ∈ rest.head?, j.whole.Closes t) :
    finish j.member c rest = .ok (c, rest) := by
  cases j with
  | or => exact Junction.and.continued_other fun t ht => (h t ht).1
  | and => rfl

theorem complete_first (hf : Complete j.member ls f) : Complete j.whole ls f := by
  intro rest hrest
  have hfinish : finish j.whole f.condition rest = j.continued f.condition rest := by
    cases j <;> rfl
  rw [read_whole, hf rest fun t ht => closes_member (hrest t ht), finish_member hrest, hfinish]
  rfl

theorem complete_next (hf : Complete j.whole ls f) (hg : Complete j.member ms g) :
    Complete j.whole (ls ++ j.lexeme :: ms) (j.formula f g) := by
  intro rest hrest
  have hfinish (a : Condition) (ts : List Token) : finish j.whole a ts = j.continued a ts := by
    cases j <;> rfl
  have hnext : ∀ t ∈ (j.lexeme.token :: (ms.map Lexeme.token ++ rest)).head?, j.whole.Closes t := by
    rintro t ⟨⟩
    exact j.closes_lexeme
  rw [List.map_append, List.map_cons, List.append_assoc, List.cons_append, hf _ hnext, hfinish,
    continued_lexeme, hg rest fun t ht => closes_member (hrest t ht), finish_member hrest, hfinish,
    condition_formula]
  rfl

end Junction

/-- The lexeme of the comparison ends the first operand, and what follows ends the second one and
is no third. -/
theorem complete_compareTwo {ms : List Lexeme} {f g : Formula} (op : Comparison)
    (hf : Complete .unary ls f) (hg : Complete .unary ms g) :
    Complete .compare (ls ++ .comparison op :: ms) (.compare op f g) := by
  intro rest hrest
  have hnext : ∀ t ∈ (Token.comparison op :: (ms.map Lexeme.token ++ rest)).head?,
      Nonterminal.unary.Closes t := by
    rintro t ⟨⟩
    simp [Nonterminal.Closes]
  have hchained : chained? rest = none := by
    unfold chained?
    split
    · exact absurd rfl ((hrest _ rfl).1 _)
    · rfl
  rw [List.map_append, List.map_cons, List.append_assoc, List.cons_append, Lexeme.token,
    read_compare, hf _ hnext]
  show (read .unary (ms.map Lexeme.token ++ rest) >>= _) = _
  rw [hg rest fun t ht => (hrest t ht).2]
  show (match chained? rest with | some next => _ | none => _) = _
  rw [hchained]
  rfl

theorem complete_compareOne {f : Formula} (hf : Complete .unary ls f) : Complete .compare ls f := by
  intro rest hrest
  rw [read_compare, hf rest fun t ht => (hrest t ht).2]
  rcases rest with - | ⟨t, rest⟩
  · rfl
  · cases t with
    | comparison op => exact absurd rfl ((hrest _ rfl).1 op)
    | _ => rfl

theorem complete_parens {f : Formula} (hf : Complete .or ls f) :
    Complete .primary (.openParen :: ls ++ [.closeParen]) f := by
  intro rest hrest
  have hclose : ∀ t ∈ (Token.closeParen :: rest).head?, Nonterminal.or.Closes t := by
    rintro t ⟨⟩
    simp [Nonterminal.Closes]
  have hend : finish .or f.condition (.closeParen :: rest) =
      .ok (f.condition, .closeParen :: rest) := by
    apply Junction.or.continued_other
    rintro t ⟨⟩
    simp [Junction.lexeme, Lexeme.token]
  have hread := (hf _ hclose).trans hend
  rw [List.map_append, List.map_cons, List.append_assoc, List.cons_append, Lexeme.token,
    read_openParen]
  show (read .or (ls.map Lexeme.token ++ .closeParen :: rest) >>= _) = _
  rw [hread]
  rfl

/-- No operand starts with a negation. -/
theorem head?_ne_bang {f : Formula} (h : Derives .primary ls f) (rest : List Token) :
    ∀ t ∈ (ls.map Lexeme.token ++ rest).head?, t ≠ .bang := by
  cases h <;> simp [Lexeme.token]

/-- **What is derived is read**, whatever follows that does not go on with it. -/
theorem complete_of_derives {f : Formula} (h : Derives nt ls f) : Complete nt ls f := by
  induction h with
  | orOne h ih => exact Junction.complete_first (j := .or) ih
  | orMore hf hg ihf ihg => exact Junction.complete_next (j := .or) ihf ihg
  | andOne h ih => exact Junction.complete_first (j := .and) ih
  | andMore hf hg ihf ihg => exact Junction.complete_next (j := .and) ihf ihg
  | compareOne h ih => exact complete_compareOne ih
  | compareTwo op hf hg ihf ihg => exact complete_compareTwo op ihf ihg
  | not h ih =>
      intro rest hrest
      rw [List.map_cons, List.cons_append, Lexeme.token, read_bang, ih rest hrest]
      rfl
  | operand h ih =>
      intro rest hrest
      rw [read_unary (head?_ne_bang h rest), ih rest hrest]
      rfl
  | parens h ih => exact complete_parens ih
  | number n =>
      intro rest hrest
      rw [read_primary (by simp [Lexeme.token])]
      rfl
  | negative n =>
      intro rest hrest
      rw [read_primary (by simp [Lexeme.token]), finish, Formula.condition, Int64.ofInt_neg]
      · rfl
      all_goals simp
  | defined name =>
      intro rest hrest
      rw [read_primary (by simp [Lexeme.token])]
      exact atom_defined _
  | definedParens name =>
      intro rest hrest
      rw [read_primary (by simp [Lexeme.token])]
      exact atom_defined _
  | name h =>
      intro rest hrest
      rw [read_primary (by simp [Lexeme.token])]
      exact atom_name h hrest

end EmbeddedBuffers.Condition
