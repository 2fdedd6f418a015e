import UnitCalc.Proofs.Grammar.Predictive
import UnitCalc.Proofs.Grammar.Reading

/-!
# The behaviour of the readers

What each reader of the grammar does, errors included, in terms of the readers it is
built from. The bounds on the number of tokens are forgotten: a level of the grammar
behaves like its readers under any bound.
-/

namespace UnitCalc

def Token.identifier? : Token → Option String
  | .identifier name => some name
  | _ => none

theorem Token.eq_of_identifier? {t : Token} {name : String}
    (h : t.identifier? = some name) : t = .identifier name := by
  cases t <;> cases h
  rfl

def Token.unit? : Token → Option String
  | .unit symbol => some symbol
  | _ => none

theorem Token.eq_of_unit? {t : Token} {symbol : String}
    (h : t.unit? = some symbol) : t = .unit symbol := by
  cases t <;> cases h
  rfl

/-- The ways in which an operand opens. -/
inductive Opening where
  | literal (a : Expr)
  | name (name : String)
  | paren

def Token.opening? : Token → Option Opening
  | .integer k => some (.literal (.integer k))
  | .real x => some (.literal (.real x))
  | .quantity x symbol => some (.literal (.quantity x symbol))
  | .text s => some (.literal (.text s))
  | .identifier name => some (.name name)
  | .leftParen => some .paren
  | _ => none

/-- What a list that is not closed asks for. -/
def ParseError.unclosedList : Option Token → ParseError
  | some found => .unexpectedToken (.commaOr .rightParen) (some found)
  | none => .unexpectedEnd

/-- What a statement that is not ended asks for. -/
def ParseError.unended : Option Token → ParseError
  | some found => .trailingTokens found
  | none => .unexpectedEnd

namespace Grammar

variable {α β : Type} {n k : Nat} {ts : List Token}

def ending (reading : Except ParseError (Parsed α n)) : Ending α :=
  reading.map fun p => (p.value, p.rest)

theorem yields_iff_ending {reading : Except ParseError (Parsed α n)} {a : α}
    {rest : List Token} : Yields reading a rest ↔ ending reading = .ok (a, rest) := by
  constructor
  · rintro ⟨fewer, rfl⟩
    rfl
  · intro h
    cases reading with
    | error e => cases h
    | ok p =>
        cases h
        exact ⟨p.fewer, rfl⟩

/-- How much fewer the tokens are does not show in the ending. -/
theorem ending_bind_pure (reading : Except ParseError (Parsed α n))
    (fewer : ∀ p : Parsed α n, p.rest.length < k) :
    ending (reading >>= fun p => pure ⟨p.value, p.rest, fewer p⟩) = ending reading := by
  cases reading with
  | error e => rfl
  | ok p => rfl

theorem andThen.of_bind {first : Behaviour α} {next : α → Behaviour β}
    {x : Except ParseError (Parsed α n)} {f : Parsed α n → Except ParseError (Parsed β k)}
    (hx : first ts (ending x))
    (hf : ∀ a rest fewer, next a rest (ending (f ⟨a, rest, fewer⟩))) :
    andThen first next ts (ending (x >>= f)) := by
  cases x with
  | error e => exact .error hx
  | ok p => exact .ok hx (hf p.value p.rest p.fewer)

/-! ## Single tokens -/

def expecting (t : Token) : Behaviour Unit :=
  expects (only t) (.unexpectedToken (.token t))

theorem expecting_expect (t : Token) (ts : List Token) :
    expecting t ts (ending (expect t ts)) := by
  rcases ts with _ | ⟨found, rest⟩
  · exact .otherwise .nil rfl
  · by_cases h : found = t
    · rw [expect, if_pos h]
      exact .chosen rfl (h ▸ only_self found) rfl
    · rw [expect, if_neg h]
      exact .otherwise (.cons (only_of_ne h) rest) rfl

def identifying : Behaviour String :=
  expects Token.identifier? (.unexpectedToken .identifier)

theorem identifying_identifier (h : ts.length < n) :
    identifying ts (ending (identifier ts h)) := by
  rcases ts with _ | ⟨t, rest⟩
  · exact .otherwise .nil rfl
  · cases t with
    | identifier name => exact .chosen rfl rfl rfl
    | _ => exact .otherwise (.cons rfl rest) rfl

theorem expects_colon (ts : List Token) :
    expects (only (.sign .colon)) .expectedColon ts (ending (colon ts)) := by
  unfold colon
  split
  · exact .chosen rfl (only_self _) rfl
  · next hother => exact .otherwise (unchosen_only hother) rfl

/-! ## Lists -/

/-- Reads items up to the closing parenthesis. -/
def listing (item : (n : Nat) → Reader α n) : Behaviour (List α) := fun ts r =>
  ∃ n h, r = ending (items (item n) ts h)

theorem andThen_of_listing {item : (n : Nat) → Reader α n} {b : Behaviour α}
    (hb : ∀ n ts h, b ts (ending (item n ts h))) {r : Ending (List α)}
    (h : listing item ts r) :
    andThen b (fun a =>
      peek (only .comma) (fun _ => andThen (listing item) fun more => done (a :: more))
        (peek (only .rightParen) (fun _ => done [a]) (fails .unclosedList))) ts r := by
  obtain ⟨n, h, rfl⟩ := h
  rw [items]
  refine .of_bind (hb n ts h) fun a rest fewer => ?_
  dsimp only
  split
  · refine .chosen rfl (only_self _) (.of_bind ⟨n, _, rfl⟩ ?_)
    exact fun _ _ _ => rfl
  · refine .otherwise (unchosen_only nofun) ?_
    exact .chosen rfl (only_self _) rfl
  · next found tail _ hcomma hparen =>
      refine .otherwise (unchosen_only fun tail htail => ?_) ?_
      · cases htail
        exact hcomma rfl
      · refine .otherwise (unchosen_only fun tail htail => ?_) rfl
        cases htail
        exact hparen rfl
  · exact .otherwise .nil (.otherwise .nil rfl)

/-- Reads a list after its opening parenthesis. -/
def listingInParens (item : (n : Nat) → Reader α n) : Behaviour (List α) :=
  peek (only .rightParen) (fun _ => done []) (listing item)

theorem listingInParens_listInParens (item : (n : Nat) → Reader α n) (h : ts.length < n) :
    listingInParens item ts (ending (listInParens (item n) ts h)) := by
  unfold listInParens
  split
  · exact .chosen rfl (only_self _) rfl
  · next hother =>
      refine .otherwise (unchosen_only fun tail htail => ?_) ⟨n, h, rfl⟩
      subst htail
      exact hother tail _ rfl HEq.rfl

/-! ## Operands -/

/-- Reads an expression. -/
def nesting : Behaviour Expr := fun ts r => r = ending (expression ts)

/-- Reads a level of the grammar. -/
def level (read : ∀ {n}, Reader Expr n → Reader Expr (n + 1)) : Behaviour Expr := fun ts r =>
  ∃ n h, r = ending (read (inner n) ts h)

/-- Goes on from the token that opens an operand. -/
def opened : Opening → Behaviour Expr
  | .literal a => done a
  | .name name =>
      peek (only .leftParen)
        (fun _ => andThen (listingInParens inner) fun args => done (.call name args))
        (done (.var name))
  | .paren => andThen nesting fun a => andThen (expecting .rightParen) fun _ => done a

theorem peek_of_primary {r : Ending Expr} (h : level primary ts r) :
    peek Token.opening? opened (fails (.unexpectedToken .expression)) ts r := by
  obtain ⟨n, h, rfl⟩ := h
  rcases ts with _ | ⟨t, rest⟩
  · exact .otherwise .nil rfl
  · cases t with
    | integer k => exact .chosen rfl rfl rfl
    | real x => exact .chosen rfl rfl rfl
    | quantity x unit => exact .chosen rfl rfl rfl
    | text s => exact .chosen rfl rfl rfl
    | identifier name =>
        refine .chosen rfl rfl ?_
        rcases rest with _ | ⟨t, tail⟩
        · exact .otherwise .nil rfl
        · cases t with
          | leftParen =>
              refine .chosen rfl (only_self _) ?_
              exact .of_bind (listingInParens_listInParens inner _) fun _ _ _ => rfl
          | _ => exact .otherwise (unchosen_only nofun) rfl
    | leftParen =>
        refine .chosen rfl rfl (.of_bind rfl fun a rest _ => ?_)
        exact .of_bind (expecting_expect .rightParen rest) fun _ _ _ => rfl
    | _ => exact .otherwise (.cons rfl rest) rfl

theorem peek_of_unary {r : Ending Expr} (h : level unary ts r) :
    peek Token.unaryOp? (fun op => andThen (level unary) fun a => done (.unary op a))
      (level primary) ts r := by
  obtain ⟨n, h, rfl⟩ := h
  dsimp only
  rcases ts with _ | ⟨t, rest⟩
  · rw [unary]
    exact .otherwise .nil ⟨n, h, rfl⟩
  · rw [unary]
    split
    · next op hop => exact .chosen rfl hop (.of_bind ⟨n, _, rfl⟩ fun _ _ _ => rfl)
    · next hop => exact .otherwise (.cons hop rest) ⟨n, h, rfl⟩

/-! ## Chains of operators -/

/-- Goes on from a left operand. -/
def chain (operand : ∀ {n}, Reader Expr n → Reader Expr (n + 1)) (accepts : BinaryOp → Bool)
    (left : Expr) : Behaviour Expr := fun ts r =>
  ∃ n h, r = ending (foldLeft (operand (inner n)) accepts left ts h)

theorem peek_of_chain {operand : ∀ {n}, Reader Expr n → Reader Expr (n + 1)}
    {accepts : BinaryOp → Bool} {left : Expr} {r : Ending Expr}
    (h : chain operand accepts left ts r) :
    peek (fun t => t.binaryOp?.filter accepts)
      (fun op => andThen (level operand) fun right =>
        chain operand accepts (.binary op left right))
      (done left) ts r := by
  obtain ⟨n, h, rfl⟩ := h
  rcases ts with _ | ⟨t, rest⟩
  · rw [foldLeft]
    exact .otherwise .nil rfl
  · rw [foldLeft]
    split
    · next hop => exact .otherwise (.cons hop rest) rfl
    · next op hop =>
        refine .chosen rfl hop (.of_bind ⟨n, _, rfl⟩ fun right mid _ => ?_)
        exact ⟨n, _, ending_bind_pure _ _⟩

theorem andThen_of_leftAssociative {first operand : ∀ {n}, Reader Expr n → Reader Expr (n + 1)}
    {accepts : BinaryOp → Bool} {r : Ending Expr}
    (h : level (fun nested => leftAssociative (first nested) (operand nested) accepts) ts r) :
    andThen (level first) (chain operand accepts) ts r := by
  obtain ⟨n, h, rfl⟩ := h
  refine .of_bind ⟨n, h, rfl⟩ fun left rest _ => ?_
  exact ⟨n, _, ending_bind_pure _ _⟩

/-- Goes on from an operand with conversions. -/
def converting (operand : Expr) : Behaviour Expr := fun ts r =>
  r = ending (conversions operand ts)

theorem peek_of_converting {operand : Expr} {r : Ending Expr} (h : converting operand ts r) :
    peek (only .keywordTo)
      (fun _ => andThen (expects Token.unit? .expectedUnit) fun unit =>
        converting (.convert operand unit))
      (done operand) ts r := by
  subst h
  rw [conversions.eq_def operand ts]
  split
  · refine .chosen rfl (only_self _) (.ok (.chosen rfl rfl rfl) ?_)
    exact ending_bind_pure _ _
  · next rest hunit =>
      refine .chosen rfl (only_self _) (.error (.otherwise (fun t ht => ?_) rfl))
      obtain ⟨tail, rfl⟩ := List.head?_eq_some_iff.mp ht
      cases t with
      | unit symbol => exact absurd rfl (hunit symbol tail)
      | _ => rfl
  · next hto => exact .otherwise (unchosen_only hto) rfl

theorem andThen_of_conversion {r : Ending Expr} (h : level conversion ts r) :
    andThen (level additive) converting ts r := by
  obtain ⟨n, h, rfl⟩ := h
  refine .of_bind ⟨n, h, rfl⟩ fun operand rest _ => ?_
  exact ending_bind_pure _ _

/-! ## Expressions and statements -/

/-- Reads the branches of a conditional after its question mark. -/
def branching (condition : Expr) : Behaviour Expr :=
  andThen nesting fun onTrue =>
    andThen (expects (only (.sign .colon)) .expectedColon) fun _ =>
      andThen nesting fun onFalse => done (.ternary condition onTrue onFalse)

theorem andThen_of_nesting {r : Ending Expr} (h : nesting ts r) :
    andThen (level comparison) (fun condition =>
      peek (only (.sign .question)) (fun _ => branching condition) (done condition)) ts r := by
  subst h
  rw [expression]
  refine .of_bind ⟨ts.length, _, rfl⟩ fun condition rest fewer => ?_
  dsimp only
  split
  · refine .chosen rfl (only_self _) (.of_bind rfl fun onTrue mid _ => ?_)
    refine .of_bind (expects_colon mid) fun _ mid' _ => ?_
    exact .of_bind rfl fun _ _ _ => rfl
  · next hother =>
      refine .otherwise (unchosen_only fun tail htail => ?_) rfl
      subst htail
      exact hother tail _ rfl HEq.rfl

def assigning : Behaviour Expr := fun ts r => r = ending (assignment ts)

theorem andThen_of_assigning {r : Ending Expr} (h : assigning ts r) :
    andThen nesting (fun target =>
      peek (only .assign)
        (fun _ => andThen assigning fun value => done (.assign target value))
        (done target)) ts r := by
  subst h
  rw [assignment]
  refine .of_bind rfl fun target rest fewer => ?_
  dsimp only
  split
  · exact .chosen rfl (only_self _) (.of_bind rfl fun _ _ _ => rfl)
  · next hother =>
      refine .otherwise (unchosen_only fun tail htail => ?_) rfl
      subst htail
      exact hother tail _ rfl HEq.rfl

/-- Reads a declaration after its keyword. -/
def declaring : Behaviour Expr :=
  andThen identifying fun name =>
    andThen (expecting .leftParen) fun _ =>
      andThen (listingInParens fun _ => identifier) fun params =>
        andThen (expecting .assign) fun _ =>
          andThen nesting fun body => done (.declare name params body)

theorem declaring_declaration (ts : List Token) : declaring ts (ending (declaration ts)) := by
  refine .of_bind (identifying_identifier _) fun name rest _ => ?_
  refine .of_bind (expecting_expect .leftParen rest) fun _ rest _ => ?_
  refine .of_bind (listingInParens_listInParens _ _) fun params rest _ => ?_
  refine .of_bind (expecting_expect .assign rest) fun _ rest _ => ?_
  exact .of_bind rfl fun _ _ _ => rfl

def stating : Behaviour Expr := fun ts r => r = ending (statement ts)

theorem peek_of_stating {r : Ending Expr} (h : stating ts r) :
    peek (only .keywordFn) (fun _ => declaring) assigning ts r := by
  subst h
  unfold statement
  split
  · next tail =>
      refine .chosen rfl (only_self _) ?_
      rw [ending_bind_pure]
      exact declaring_declaration tail
  · next hother => exact .otherwise (unchosen_only hother) rfl

/-- Reads a statement and the token that ends the input. -/
def parsing : Behaviour Expr :=
  andThen stating fun a => peek (only .endOfInput) (fun _ => done a) (fails .unended)

theorem exists_parsing (ts : List Token) :
    ∃ r, parsing ts r ∧ Expr.parse ts = r.map Prod.fst := by
  have hstating : stating ts (ending (statement ts)) := rfl
  unfold Expr.parse
  cases hs : statement ts with
  | error e =>
      rw [hs] at hstating
      exact ⟨.error e, .error hstating, rfl⟩
  | ok p =>
      obtain ⟨a, rest, fewer⟩ := p
      rw [hs] at hstating
      rcases rest with _ | ⟨t, tail⟩
      · exact ⟨_, .ok hstating (.otherwise .nil rfl), rfl⟩
      · cases t with
        | endOfInput => exact ⟨_, .ok hstating (.chosen rfl (only_self _) rfl), rfl⟩
        | _ => exact ⟨_, .ok hstating (.otherwise (unchosen_only nofun) rfl), rfl⟩

end Grammar

end UnitCalc
