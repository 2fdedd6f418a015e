import UnitCalc.Expr.Parse

/-!
# Reading with one token of lookahead

Readers of the grammar carry bounds on the tokens that are left. A behaviour says what
reading can come to without them, as a relation that is put together from a few ways to
go on: to be done, to fail, to read one thing after another, and to choose by the next
token.

A behaviour is prompt if it never looks further than it must: what it comes to is
settled by the tokens that it took and the one after them, and when it fails, it fails
at the first token that nothing can be made of. All ways to put behaviours together keep
that (`Prompt.andThen`, `Prompt.peek`).
-/

namespace UnitCalc

/-- The text in which an error names what was found. -/
def ParseError.foundText : ParseError → Option String
  | .unexpectedToken _ found | .expectedColon found | .expectedUnit found =>
      some (describeFound found)
  | .trailingTokens found => some found.describe
  | .unexpectedEnd => none

/-- The error says that there was no further token. -/
def ParseError.RanOut (e : ParseError) : Prop :=
  e = .unexpectedEnd ∨ e.foundText = some "end of input"

namespace Grammar

variable {α β γ : Type}

/-- What reading comes to: an error, or what was read and the tokens after it. -/
abbrev Ending (α : Type) := Except ParseError (α × List Token)

/-- Which endings the reading of which tokens may have. -/
abbrev Behaviour (α : Type) := List Token → Ending α → Prop

/-! ## Putting behaviours together -/

/-- Reads nothing. -/
def done (a : α) : Behaviour α := fun ts r => r = .ok (a, ts)

/-- Fails because of the next token, or because there is none. -/
def fails (error : Option Token → ParseError) : Behaviour α := fun ts r =>
  r = .error (error ts.head?)

/-- Reads one thing and goes on from it. -/
inductive andThen (first : Behaviour α) (next : α → Behaviour β) : Behaviour β
  | error {ts : List Token} {e : ParseError} (h : first ts (.error e)) :
      andThen first next ts (.error e)
  | ok {ts rest : List Token} {a : α} {r : Ending β} (h : first ts (.ok (a, rest)))
      (hnext : next a rest r) : andThen first next ts r

theorem andThen_of_ok {first : Behaviour α} {next : α → Behaviour β} {ts rest : List Token}
    {a : α} {r : Ending β} (hfirst : ∀ r, first ts r → r = .ok (a, rest))
    (h : andThen first next ts r) : next a rest r := by
  cases h with
  | error hfail => cases hfirst _ hfail
  | ok hread hnext =>
      cases hfirst _ hread
      exact hnext

theorem andThen_of_error {first : Behaviour α} {next : α → Behaviour β} {ts : List Token}
    {e : ParseError} {r : Ending β} (hfirst : ∀ r, first ts r → r = .error e)
    (h : andThen first next ts r) : r = .error e := by
  cases h with
  | error hfail =>
      cases hfirst _ hfail
      rfl
  | ok hread _ => cases hfirst _ hread

/-- No next token is chosen. -/
def Unchosen (choose : Token → Option γ) (ts : List Token) : Prop :=
  ∀ t ∈ ts.head?, choose t = none

/-- Takes the next token and goes on from it if it is chosen. -/
inductive peek (choose : Token → Option γ) (chosen : γ → Behaviour α)
    (otherwise : Behaviour α) : Behaviour α
  | chosen {ts rest : List Token} {t : Token} {c : γ} {r : Ending α} (hts : ts = t :: rest)
      (hc : choose t = some c) (h : chosen c rest r) : peek choose chosen otherwise ts r
  | otherwise {ts : List Token} {r : Ending α} (hc : Unchosen choose ts)
      (h : otherwise ts r) : peek choose chosen otherwise ts r

/-- Reads one token, which must be a chosen one. -/
def expects (choose : Token → Option γ) (error : Option Token → ParseError) : Behaviour γ :=
  peek choose done (fails error)

/-- Chooses one token. -/
def only (t : Token) : Token → Option Unit := fun found =>
  if found = t then some () else none

@[simp] theorem only_self (t : Token) : only t t = some () := if_pos rfl

theorem only_eq_some {t found : Token} {u : Unit} (h : only t found = some u) : found = t := by
  unfold only at h
  split at h
  · assumption
  · cases h

theorem only_of_ne {t found : Token} (h : found ≠ t) : only t found = none := if_neg h

theorem Unchosen.nil {choose : Token → Option γ} : Unchosen choose [] :=
  fun _ h => nomatch h

theorem Unchosen.cons {choose : Token → Option γ} {t : Token} (h : choose t = none)
    (ts : List Token) : Unchosen choose (t :: ts) := by
  intro t' ht'
  cases ht'
  exact h

theorem unchosen_only {t : Token} {ts : List Token} (h : ∀ tail, ts ≠ t :: tail) :
    Unchosen (only t) ts := by
  intro found hfound
  refine only_of_ne ?_
  rintro rfl
  obtain ⟨tail, hts⟩ := List.head?_eq_some_iff.mp hfound
  exact h tail hts

theorem peek_cons {choose : Token → Option γ} {chosen : γ → Behaviour α}
    {otherwise : Behaviour α} {t : Token} {ts : List Token} {c : γ} {r : Ending α}
    (hc : choose t = some c) (h : peek choose chosen otherwise (t :: ts) r) : chosen c ts r := by
  cases h with
  | chosen hts hc' h =>
      cases hts
      rw [hc] at hc'
      cases hc'
      exact h
  | otherwise hnone _ =>
      have hnone := hnone t rfl
      rw [hc] at hnone
      cases hnone

theorem peek_of_unchosen {choose : Token → Option γ} {chosen : γ → Behaviour α}
    {otherwise : Behaviour α} {ts : List Token} {r : Ending α} (hc : Unchosen choose ts)
    (h : peek choose chosen otherwise ts r) : otherwise ts r := by
  cases h with
  | chosen hts hsome _ =>
      subst hts
      have hnone := hc _ rfl
      rw [hsome] at hnone
      cases hnone
  | otherwise _ h => exact h

/-! ## Prompt behaviours -/

/-- At these tokens the behaviour is prompt. The tokens that it has taken when it fails
are `viable`: something can be made of them. -/
inductive Prompt (b : Behaviour α) (viable : List Token → Prop) (ts : List Token) : Prop
  /-- The tokens `w` and the one after them decide what is read. -/
  | done {w rest : List Token} {a : α} (hts : ts = w ++ rest)
      (h : ∀ rest', rest'.head? = rest.head? → ∀ r, b (w ++ rest') r → r = .ok (a, rest'))
  /-- The token `t` does not go on with the tokens before it, whatever follows. -/
  | stuck {p rest : List Token} {t : Token} {e : ParseError} (hts : ts = p ++ t :: rest)
      (hp : viable p) (he : e.foundText = some t.describe)
      (h : ∀ rest' r, b (p ++ t :: rest') r → r = .error e)
  | ranOut {e : ParseError} (hts : viable ts) (he : e.RanOut)
      (h : ∀ r, b ts r → r = .error e)

section Prompt

variable {b : Behaviour α} {viable : List Token → Prop} {ts : List Token}

theorem Prompt.of_imp {b' : Behaviour α} (hb : ∀ ts r, b' ts r → b ts r)
    (h : Prompt b viable ts) : Prompt b' viable ts := by
  cases h with
  | done hts h => exact .done hts fun rest' hhead r hr => h rest' hhead r (hb _ r hr)
  | stuck hts hp he h => exact .stuck hts hp he fun rest' r hr => h rest' r (hb _ r hr)
  | ranOut hts he h => exact .ranOut hts he fun r hr => h r (hb _ r hr)

theorem Prompt.weaken {viable' : List Token → Prop} (h : Prompt b viable ts)
    (hv : ∀ p, viable p → viable' p) : Prompt b viable' ts := by
  cases h with
  | done hts h => exact .done hts h
  | stuck hts hp he h => exact .stuck hts (hv _ hp) he h
  | ranOut hts he h => exact .ranOut (hv _ hts) he h

/-- Prompt at all lists of fewer than `m` tokens. -/
def PromptBelow (m : Nat) (b : Behaviour α) (viable : List Token → Prop) : Prop :=
  ∀ ts : List Token, ts.length < m → Prompt b viable ts

theorem prompt_done (a : α) : Prompt (done a) viable ts :=
  .done (w := []) rfl fun _ _ _ hr => hr

/-- An error that names the next token, or the end if there is none. -/
structure Locates (error : Option Token → ParseError) : Prop where
  found : ∀ t, (error (some t)).foundText = some t.describe
  ended : (error none).RanOut

theorem locates_unexpectedToken (expected : Expectation) :
    Locates (.unexpectedToken expected) :=
  ⟨fun _ => rfl, Or.inr rfl⟩

theorem prompt_fails {error : Option Token → ParseError} (h : Locates error)
    (hv : viable []) : Prompt (fails error : Behaviour α) viable ts := by
  rcases ts with _ | ⟨t, rest⟩
  · exact .ranOut hv h.ended fun r hr => hr
  · exact .stuck (p := []) rfl hv (h.found t) fun rest' r hr => hr

/-- What precedes the tokens that are left does not matter for what is next. -/
theorem head?_append_congr (w : List Token) {rest rest' : List Token}
    (h : rest'.head? = rest.head?) : (w ++ rest').head? = (w ++ rest).head? := by
  rw [List.head?_append, List.head?_append, h]

/-- If a first reading is prompt, and every reading that goes on from it, so are both
together. -/
theorem Prompt.sequence {viable' : List Token → Prop} {next : α → Behaviour β}
    (h : Prompt b viable ts) (hv : ∀ p, viable p → viable' p)
    (hnext : ∀ w a rest, ts = w ++ rest → (∀ r, b ts r → r = .ok (a, rest)) →
      Prompt (next a) (fun p => viable' (w ++ p)) rest) :
    Prompt (andThen b next) viable' ts := by
  cases h with
  | @done w rest a hts h =>
      cases hnext w a rest hts (hts ▸ h rest rfl) with
      | @done v tail c hrest hthen =>
          subst hrest
          refine .done (w := w ++ v) (a := c) (by rw [hts, List.append_assoc])
            fun tail' hhead r hr => ?_
          rw [List.append_assoc] at hr
          -- the first reading stays what it was: the token after it is the same
          have hfirst := h (v ++ tail') (head?_append_congr v hhead)
          exact hthen tail' hhead r (andThen_of_ok hfirst hr)
      | @stuck p tail t e hrest hp he hthen =>
          subst hrest
          refine .stuck (p := w ++ p) (by rw [hts, List.append_assoc]) hp he fun tail' r hr => ?_
          rw [List.append_assoc] at hr
          have hfirst := h (p ++ t :: tail') (head?_append_congr p rfl)
          exact hthen tail' r (andThen_of_ok hfirst hr)
      | ranOut hrest he hthen =>
          subst hts
          exact .ranOut hrest he fun r hr => hthen r (andThen_of_ok (h rest rfl) hr)
  | stuck hts hp he h =>
      exact .stuck hts (hv _ hp) he fun rest' r hr => andThen_of_error (h rest') hr
  | ranOut hts he h => exact .ranOut (hv _ hts) he fun r hr => andThen_of_error h hr

/-- What is made of the thing read does not matter. -/
theorem Prompt.map (h : Prompt b viable ts) (f : α → β) :
    Prompt (andThen b fun a => Grammar.done (f a)) viable ts :=
  h.sequence (fun _ hp => hp) fun _ a _ _ _ => prompt_done (f a)

/-- Every reading with the behaviour takes some tokens, of which `good` holds. -/
def Takings (b : Behaviour α) (good : List Token → α → Prop) : Prop :=
  ∀ ⦃ts a rest⦄, b ts (.ok (a, rest)) → ∃ w, w ≠ [] ∧ ts = w ++ rest ∧ good w a

/-- What comes after a prompt reading may rely on the tokens `w` that it took. -/
theorem Prompt.andThen {good : List Token → α → Prop} {viable' : List Token → Prop}
    {next : α → Behaviour β} (h : Prompt b viable ts) (hends : ∃ r, b ts r)
    (htakes : Takings b good) (hv : ∀ p, viable p → viable' p)
    (hnext : ∀ w a rest, w ≠ [] → ts = w ++ rest → good w a →
      Prompt (next a) (fun p => viable' (w ++ p)) rest) :
    Prompt (andThen b next) viable' ts := by
  refine h.sequence hv fun w a rest hts hread => ?_
  obtain ⟨r, hr⟩ := hends
  rw [hread r hr] at hr
  obtain ⟨w', hw', hts', hgood⟩ := htakes hr
  obtain rfl : w = w' := List.append_cancel_right (hts.symm.trans hts')
  exact hnext w a rest hw' hts hgood

theorem Prompt.peek {choose : Token → Option γ} {chosen : γ → Behaviour α}
    (hchosen : ∀ t c rest, ts = t :: rest → choose t = some c →
      Prompt (chosen c) (fun p => viable (t :: p)) rest)
    (hotherwise : Unchosen choose ts → Prompt b viable ts) :
    Prompt (peek choose chosen b) viable ts := by
  by_cases hc : Unchosen choose ts
  · -- the head of the tokens stays what it is, so none is chosen after a change either
    have hsame : ∀ ts' r, ts'.head? = ts.head? → Grammar.peek choose chosen b ts' r →
        b ts' r := by
      intro ts' r hhead hr
      refine peek_of_unchosen (fun t ht => hc t ?_) hr
      rwa [hhead] at ht
    cases hotherwise hc with
    | done hts h =>
        subst hts
        exact .done rfl fun rest' hhead r hr =>
          h rest' hhead r (hsame _ r (head?_append_congr _ hhead) hr)
    | stuck hts hp he h =>
        subst hts
        exact .stuck rfl hp he fun rest' r hr =>
          h rest' r (hsame _ r (head?_append_congr _ rfl) hr)
    | ranOut hts he h => exact .ranOut hts he fun r hr => h r (hsame _ r rfl hr)
  · obtain ⟨t, c, rest, rfl, hsome⟩ : ∃ t c rest, ts = t :: rest ∧ choose t = some c := by
      rcases ts with _ | ⟨t, rest⟩
      · exact absurd .nil hc
      · cases hsome : choose t with
        | none => exact absurd (.cons hsome rest) hc
        | some c => exact ⟨t, c, rest, rfl, hsome⟩
    cases hchosen t c rest rfl hsome with
    | @done w rest' a hts h =>
        refine .done (w := t :: w) (a := a) (by rw [hts]; rfl) fun tail hhead r hr => ?_
        exact h tail hhead r (peek_cons hsome hr)
    | @stuck p rest' t' e hts hp he h =>
        refine .stuck (p := t :: p) (by rw [hts]; rfl) hp he fun tail r hr => ?_
        exact h tail r (peek_cons hsome hr)
    | ranOut hts he h => exact .ranOut hts he fun r hr => h r (peek_cons hsome hr)

theorem prompt_expects {choose : Token → Option γ} {error : Option Token → ParseError}
    (h : Locates error) (hv : viable []) : Prompt (expects choose error) viable ts :=
  .peek (fun _ _ _ _ _ => prompt_done _) fun _ => prompt_fails h hv

theorem takings_expects (choose : Token → Option γ) (error : Option Token → ParseError) :
    Takings (expects choose error) fun w c => ∃ t, w = [t] ∧ choose t = some c := by
  intro ts c rest h
  cases h with
  | @chosen _ rest' t c' _ hts hc h =>
      cases h
      exact ⟨[t], List.cons_ne_nil t [], hts, t, rfl, hc⟩
  | otherwise _ h => cases h

theorem exists_expects (choose : Token → Option γ) (error : Option Token → ParseError)
    (ts : List Token) : ∃ r, expects choose error ts r := by
  rcases ts with _ | ⟨t, rest⟩
  · exact ⟨_, .otherwise .nil rfl⟩
  · cases hc : choose t with
    | none => exact ⟨_, .otherwise (.cons hc rest) rfl⟩
    | some c => exact ⟨_, .chosen rfl hc rfl⟩

theorem Prompt.token {choose : Token → Option γ} {error : Option Token → ParseError}
    {next : γ → Behaviour β} (herror : Locates error) (hv : viable [])
    (hnext : ∀ t c rest, ts = t :: rest → choose t = some c →
      Prompt (next c) (fun p => viable (t :: p)) rest) :
    Prompt (Grammar.andThen (expects choose error) next) viable ts := by
  refine .andThen (prompt_expects herror hv) (exists_expects choose error ts)
    (takings_expects choose error) (fun _ h => h) fun w c rest _ hts hw => ?_
  obtain ⟨t, rfl, ht⟩ := hw
  exact hnext t c rest hts ht

end Prompt

end Grammar

end UnitCalc
