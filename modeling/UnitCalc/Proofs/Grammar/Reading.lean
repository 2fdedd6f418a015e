import UnitCalc.Expr.Parse

/-!
# What the readers of the grammar yield

For each reader, when it succeeds and with what: one equivalence each, in terms
of the readers it is built from. What follows about the grammar cites these and
does not open a reader again.
-/

namespace UnitCalc.Grammar

variable {α β : Type} {n k : Nat}

/-- The reading succeeded with `a` and left the tokens `rest`. -/
def Yields (reading : Except ParseError (Parsed α n)) (a : α) (rest : List Token) :
    Prop :=
  ∃ fewer, reading = .ok ⟨a, rest, fewer⟩

@[simp] theorem yields_ok {p : Parsed α n} {a : α} {rest : List Token} :
    Yields (.ok p) a rest ↔ p.value = a ∧ p.rest = rest := by
  constructor
  · rintro ⟨fewer, h⟩
    cases h
    exact ⟨rfl, rfl⟩
  · rintro ⟨rfl, rfl⟩
    exact ⟨p.fewer, rfl⟩

@[simp] theorem yields_pure {p : Parsed α n} {a : α} {rest : List Token} :
    Yields (pure p) a rest ↔ p.value = a ∧ p.rest = rest :=
  yields_ok

@[simp] theorem not_yields_error {e : ParseError} {a : α} {rest : List Token} :
    ¬ Yields (.error e : Except ParseError (Parsed α n)) a rest := by
  rintro ⟨_, h⟩
  cases h

@[simp] theorem not_yields_throw {e : ParseError} {a : α} {rest : List Token} :
    ¬ Yields (throw e : Except ParseError (Parsed α n)) a rest :=
  not_yields_error

theorem yields_bind {x : Except ParseError (Parsed α n)}
    {f : Parsed α n → Except ParseError (Parsed β k)} {b : β} {rest : List Token} :
    Yields (x >>= f) b rest ↔
      ∃ a mid fewer, x = .ok ⟨a, mid, fewer⟩ ∧ Yields (f ⟨a, mid, fewer⟩) b rest := by
  cases x with
  | error e =>
      constructor
      · exact fun h => absurd h not_yields_error
      · rintro ⟨_, _, _, h, _⟩
        cases h
  | ok p =>
      constructor
      · exact fun h => ⟨p.value, p.rest, p.fewer, rfl, h⟩
      · rintro ⟨_, _, _, h, hf⟩
        cases h
        exact hf

theorem Yields.length_lt {reading : Except ParseError (Parsed α n)} {a : α}
    {rest : List Token} (h : Yields reading a rest) : rest.length < n := by
  obtain ⟨fewer, _⟩ := h
  exact fewer

/-! ## Single tokens and lists -/

theorem yields_expect {t : Token} {ts : List Token} {u : Unit} {rest : List Token} :
    Yields (expect t ts) u rest ↔ ts = t :: rest := by
  unfold expect
  split
  · simp
  · split
    · next h =>
        subst h
        simp
    · next h => simp [h]

theorem yields_identifier {ts : List Token} {h : ts.length < n} {name : String}
    {rest : List Token} :
    Yields (identifier ts h) name rest ↔ ts = .identifier name :: rest := by
  rcases ts with _ | ⟨t, tail⟩
  · simp [identifier]
  · cases t <;> simp [identifier]

theorem yields_colon {ts : List Token} {u : Unit} {rest : List Token} :
    Yields (colon ts) u rest ↔ ts = .sign .colon :: rest := by
  unfold colon
  split
  · simp
  · next hts => simpa using hts rest

theorem yields_items {item : Reader α n} {ts : List Token} {h : ts.length < n}
    {as : List α} {rest : List Token} :
    Yields (items item ts h) as rest ↔
      ∃ a mid, Yields (item ts h) a mid ∧
        ((∃ tail more, ∃ h' : tail.length < n, mid = .comma :: tail ∧
            Yields (items item tail h') more rest ∧ as = a :: more) ∨
          (mid = .rightParen :: rest ∧ as = [a])) := by
  rw [items, yields_bind]
  constructor
  · rintro ⟨a, mid, fewer, hitem, hmore⟩
    refine ⟨a, mid, ⟨fewer, hitem⟩, ?_⟩
    dsimp only at hmore
    split at hmore
    · rw [yields_bind] at hmore
      obtain ⟨more, mid', fewer', hitems, hdone⟩ := hmore
      rw [yields_pure] at hdone
      obtain ⟨rfl, rfl⟩ := hdone
      exact Or.inl ⟨_, more, _, rfl, ⟨fewer', hitems⟩, rfl⟩
    · rw [yields_pure] at hmore
      obtain ⟨rfl, rfl⟩ := hmore
      exact Or.inr ⟨rfl, rfl⟩
    · exact absurd hmore not_yields_throw
    · exact absurd hmore not_yields_throw
  · rintro ⟨a, mid, ⟨fewer, hitem⟩, hmore⟩
    refine ⟨a, mid, fewer, hitem, ?_⟩
    rcases hmore with ⟨tail, more, h', rfl, ⟨fewer', hitems⟩, rfl⟩ | ⟨rfl, rfl⟩
    · show Yields (items item tail h' >>= _) _ _
      rw [yields_bind]
      exact ⟨more, rest, fewer', hitems, yields_pure.mpr ⟨rfl, rfl⟩⟩
    · exact yields_pure.mpr ⟨rfl, rfl⟩

theorem yields_listInParens {item : Reader α n} {ts : List Token}
    {h : ts.length < n} {as : List α} {rest : List Token} :
    Yields (listInParens item ts h) as rest ↔
      (ts = .rightParen :: rest ∧ as = []) ∨
        (ts.head? ≠ some .rightParen ∧ Yields (items item ts h) as rest) := by
  rcases ts with _ | ⟨t, tail⟩
  · simp [listInParens]
  · cases t with
    | rightParen => simp [listInParens, eq_comm, and_comm]
    | _ => simp [listInParens]

/-! ## Operands -/

/-- The ways to read an operand, by its first tokens. -/
inductive PrimaryReading (nested : Reader Expr n) :
    List Token → Expr → List Token → Prop
  | integer (k : Int64) (rest : List Token) :
      PrimaryReading nested (.integer k :: rest) (.integer k) rest
  | real (x : Float) (rest : List Token) :
      PrimaryReading nested (.real x :: rest) (.real x) rest
  | quantity (x : Float) (unit : String) (rest : List Token) :
      PrimaryReading nested (.quantity x unit :: rest) (.quantity x unit) rest
  | text (s : String) (rest : List Token) :
      PrimaryReading nested (.text s :: rest) (.text s) rest
  | var (name : String) (rest : List Token) (h : rest.head? ≠ some .leftParen) :
      PrimaryReading nested (.identifier name :: rest) (.var name) rest
  | call (name : String) {tail rest : List Token} {args : List Expr}
      (h : tail.length < n) (hargs : Yields (listInParens nested tail h) args rest) :
      PrimaryReading nested (.identifier name :: .leftParen :: tail)
        (.call name args) rest
  | group {tail rest : List Token} {a : Expr} (h : tail.length < n)
      (ha : Yields (nested tail h) a (.rightParen :: rest)) :
      PrimaryReading nested (.leftParen :: tail) a rest

theorem PrimaryReading.of_yields {nested : Reader Expr n} {ts : List Token}
    {h : ts.length < n + 1} {a : Expr} {rest : List Token}
    (hy : Yields (primary nested ts h) a rest) : PrimaryReading nested ts a rest := by
  unfold primary at hy
  split at hy
  · obtain ⟨rfl, rfl⟩ := yields_ok.mp hy
    exact .integer _ _
  · obtain ⟨rfl, rfl⟩ := yields_ok.mp hy
    exact .real _ _
  · obtain ⟨rfl, rfl⟩ := yields_ok.mp hy
    exact .quantity _ _ _
  · obtain ⟨rfl, rfl⟩ := yields_ok.mp hy
    exact .text _ _
  · obtain ⟨args, mid, fewer, hargs, hdone⟩ := yields_bind.mp hy
    obtain ⟨rfl, rfl⟩ := yields_pure.mp hdone
    exact .call _ _ ⟨fewer, hargs⟩
  · next name tail _ hcall =>
      obtain ⟨rfl, rfl⟩ := yields_ok.mp hy
      refine .var name tail fun hhead => ?_
      obtain ⟨tail', rfl⟩ := List.head?_eq_some_iff.mp hhead
      exact hcall tail' _ rfl HEq.rfl
  · obtain ⟨inner, mid, fewer, hinner, hclose⟩ := yields_bind.mp hy
    obtain ⟨_, rest', fewer', hparen, hdone⟩ := yields_bind.mp hclose
    obtain ⟨rfl, rfl⟩ := yields_pure.mp hdone
    obtain rfl : mid = .rightParen :: rest' :=
      yields_expect.mp ⟨fewer', hparen⟩
    exact .group _ ⟨fewer, hinner⟩
  · exact absurd hy not_yields_error

theorem PrimaryReading.yields {nested : Reader Expr n} {ts : List Token} {a : Expr}
    {rest : List Token} (hr : PrimaryReading nested ts a rest)
    (h : ts.length < n + 1) : Yields (primary nested ts h) a rest := by
  cases hr with
  | integer k => exact yields_ok.mpr ⟨rfl, rfl⟩
  | real x => exact yields_ok.mpr ⟨rfl, rfl⟩
  | quantity x unit => exact yields_ok.mpr ⟨rfl, rfl⟩
  | text s => exact yields_ok.mpr ⟨rfl, rfl⟩
  | var name rest hhead =>
      rcases rest with _ | ⟨t, tail⟩
      · exact yields_ok.mpr ⟨rfl, rfl⟩
      · cases t with
        | leftParen => exact absurd rfl hhead
        | _ => exact yields_ok.mpr ⟨rfl, rfl⟩
  | call name hlt hargs =>
      obtain ⟨fewer, hargs⟩ := hargs
      refine yields_bind.mpr ⟨_, _, fewer, hargs, ?_⟩
      exact yields_pure.mpr ⟨rfl, rfl⟩
  | group hlt ha =>
      obtain ⟨fewer, ha⟩ := ha
      refine yields_bind.mpr ⟨_, _, fewer, ha, ?_⟩
      obtain ⟨fewer', hparen⟩ := (yields_expect (u := ())).mpr (rfl : _ = .rightParen :: rest)
      refine yields_bind.mpr ⟨_, _, fewer', hparen, ?_⟩
      exact yields_pure.mpr ⟨rfl, rfl⟩

theorem not_yields_unary_nil {nested : Reader Expr n} {h : [].length < n + 1}
    {a : Expr} {rest : List Token} : ¬ Yields (unary nested [] h) a rest := by
  intro hy
  rw [unary] at hy
  cases PrimaryReading.of_yields hy

theorem yields_unary_cons {nested : Reader Expr n} {t : Token} {ts : List Token}
    {h : (t :: ts).length < n + 1} {a : Expr} {rest : List Token} :
    Yields (unary nested (t :: ts) h) a rest ↔
      (∃ op operand, t.unaryOp? = some op ∧
          Yields (unary nested ts (Nat.lt_of_succ_lt h)) operand rest ∧
          a = .unary op operand) ∨
        (t.unaryOp? = none ∧ Yields (primary nested (t :: ts) h) a rest) := by
  rw [unary]
  cases t.unaryOp? with
  | none => simp
  | some op =>
      constructor
      · intro hy
        obtain ⟨operand, mid, fewer, hoperand, hdone⟩ := yields_bind.mp hy
        obtain ⟨rfl, rfl⟩ := yields_pure.mp hdone
        exact Or.inl ⟨op, operand, rfl, ⟨fewer, hoperand⟩, rfl⟩
      · rintro (⟨op', operand, hop, ⟨fewer, hoperand⟩, rfl⟩ | ⟨hop, _⟩)
        · cases hop
          refine yields_bind.mpr ⟨_, _, fewer, hoperand, ?_⟩
          exact yields_pure.mpr ⟨rfl, rfl⟩
        · cases hop

/-! ## Chains of operators -/

/-- No operator of the level comes next. -/
def NoOperator (accepts : BinaryOp → Bool) (ts : List Token) : Prop :=
  ∀ t ∈ ts.head?, t.binaryOp?.filter accepts = none

theorem yields_foldLeft {operand : Reader Expr n} {accepts : BinaryOp → Bool}
    {left : Expr} {ts : List Token} {h : ts.length < n} {a : Expr}
    {rest : List Token} :
    Yields (foldLeft operand accepts left ts h) a rest ↔
      (∃ t tail op right mid, ∃ h₁ : tail.length < n, ∃ h₂ : mid.length < n,
          ts = t :: tail ∧ t.binaryOp?.filter accepts = some op ∧
          Yields (operand tail h₁) right mid ∧
          Yields (foldLeft operand accepts (.binary op left right) mid h₂) a rest) ∨
        (NoOperator accepts ts ∧ a = left ∧ rest = ts) := by
  rcases ts with _ | ⟨t, tail⟩
  · rw [foldLeft]
    simp [NoOperator, eq_comm]
  · rw [foldLeft]
    split
    · next hop =>
        simp [NoOperator, hop, eq_comm]
    · next op hop =>
        constructor
        · intro hy
          obtain ⟨right, mid, fewer, hright, hy⟩ := yields_bind.mp hy
          obtain ⟨result, rest', fewer', hresult, hdone⟩ := yields_bind.mp hy
          obtain ⟨rfl, rfl⟩ := yields_pure.mp hdone
          exact Or.inl ⟨t, tail, op, right, mid, _, _, rfl, hop, ⟨fewer, hright⟩,
            ⟨fewer', hresult⟩⟩
        · rintro (⟨t', tail', op', right, mid, h₁, h₂, heq, hop', ⟨fewer, hright⟩,
            ⟨fewer', hresult⟩⟩ | ⟨hno, _⟩)
          · cases heq
            rw [hop] at hop'
            cases hop'
            refine yields_bind.mpr ⟨_, _, fewer, hright, ?_⟩
            refine yields_bind.mpr ⟨_, _, fewer', hresult, ?_⟩
            exact yields_pure.mpr ⟨rfl, rfl⟩
          · rw [hno t rfl] at hop
            cases hop

theorem yields_leftAssociative {first operand : Reader Expr n}
    {accepts : BinaryOp → Bool} {ts : List Token} {h : ts.length < n} {a : Expr}
    {rest : List Token} :
    Yields (leftAssociative first operand accepts ts h) a rest ↔
      ∃ left mid, ∃ h' : mid.length < n, Yields (first ts h) left mid ∧
        Yields (foldLeft operand accepts left mid h') a rest := by
  unfold leftAssociative
  constructor
  · intro hy
    obtain ⟨left, mid, fewer, hleft, hy⟩ := yields_bind.mp hy
    obtain ⟨result, rest', fewer', hresult, hdone⟩ := yields_bind.mp hy
    obtain ⟨rfl, rfl⟩ := yields_pure.mp hdone
    exact ⟨left, mid, _, ⟨fewer, hleft⟩, ⟨fewer', hresult⟩⟩
  · rintro ⟨left, mid, h', ⟨fewer, hleft⟩, ⟨fewer', hresult⟩⟩
    refine yields_bind.mpr ⟨_, _, fewer, hleft, ?_⟩
    refine yields_bind.mpr ⟨_, _, fewer', hresult, ?_⟩
    exact yields_pure.mpr ⟨rfl, rfl⟩

theorem yields_conversions {operand : Expr} {ts : List Token} {a : Expr}
    {rest : List Token} :
    Yields (conversions operand ts) a rest ↔
      (∃ unit tail, ts = .keywordTo :: .unit unit :: tail ∧
          Yields (conversions (.convert operand unit) tail) a rest) ∨
        (ts.head? ≠ some .keywordTo ∧ a = operand ∧ rest = ts) := by
  rw [conversions.eq_def operand ts]
  split
  · next unit tail =>
      constructor
      · intro hy
        obtain ⟨result, rest', fewer, hresult, hdone⟩ := yields_bind.mp hy
        obtain ⟨rfl, rfl⟩ := yields_pure.mp hdone
        exact Or.inl ⟨unit, tail, rfl, ⟨fewer, hresult⟩⟩
      · rintro (⟨unit', tail', heq, ⟨fewer, hresult⟩⟩ | ⟨hhead, _⟩)
        · cases heq
          refine yields_bind.mpr ⟨_, _, fewer, hresult, ?_⟩
          exact yields_pure.mpr ⟨rfl, rfl⟩
        · exact absurd rfl hhead
  · next tail hunit =>
      constructor
      · exact fun hy => absurd hy not_yields_error
      · rintro (⟨unit, tail', heq, _⟩ | ⟨hhead, _⟩)
        · cases heq
          exact absurd rfl (hunit unit tail')
        · exact absurd rfl hhead
  · next hunit hto =>
      have hhead : ts.head? ≠ some .keywordTo := by
        intro heq
        obtain ⟨tail, rfl⟩ := List.head?_eq_some_iff.mp heq
        exact hto tail rfl
      constructor
      · intro hy
        obtain ⟨rfl, rfl⟩ := yields_ok.mp hy
        exact Or.inr ⟨hhead, rfl, rfl⟩
      · rintro (⟨unit, tail, heq, _⟩ | ⟨_, rfl, rfl⟩)
        · exact absurd heq (hunit unit tail)
        · exact yields_ok.mpr ⟨rfl, rfl⟩

theorem yields_conversion {nested : Reader Expr n} {ts : List Token}
    {h : ts.length < n + 1} {a : Expr} {rest : List Token} :
    Yields (conversion nested ts h) a rest ↔
      ∃ operand mid, Yields (additive nested ts h) operand mid ∧
        Yields (conversions operand mid) a rest := by
  unfold conversion
  constructor
  · intro hy
    obtain ⟨operand, mid, fewer, hoperand, hy⟩ := yields_bind.mp hy
    obtain ⟨result, rest', fewer', hresult, hdone⟩ := yields_bind.mp hy
    obtain ⟨rfl, rfl⟩ := yields_pure.mp hdone
    exact ⟨operand, mid, ⟨fewer, hoperand⟩, ⟨fewer', hresult⟩⟩
  · rintro ⟨operand, mid, ⟨fewer, hoperand⟩, ⟨fewer', hresult⟩⟩
    refine yields_bind.mpr ⟨_, _, fewer, hoperand, ?_⟩
    refine yields_bind.mpr ⟨_, _, fewer', hresult, ?_⟩
    exact yields_pure.mpr ⟨rfl, rfl⟩

/-! ## Conditionals and statements -/

theorem yields_conditional {nested : Reader Expr n} {ts : List Token}
    {h : ts.length < n + 1} {a : Expr} {rest : List Token} :
    Yields (conditional nested ts h) a rest ↔
      ∃ condition mid, Yields (comparison nested ts h) condition mid ∧
        ((∃ tail onTrue mid' onFalse, ∃ h₁ : tail.length < n, ∃ h₂ : mid'.length < n,
            mid = .sign .question :: tail ∧
            Yields (nested tail h₁) onTrue (.sign .colon :: mid') ∧
            Yields (nested mid' h₂) onFalse rest ∧
            a = .ternary condition onTrue onFalse) ∨
          (mid.head? ≠ some (.sign .question) ∧ a = condition ∧ rest = mid)) := by
  unfold conditional
  constructor
  · intro hy
    obtain ⟨condition, mid, fewer, hcondition, hy⟩ := yields_bind.mp hy
    refine ⟨condition, mid, ⟨fewer, hcondition⟩, ?_⟩
    dsimp only at hy
    split at hy
    · obtain ⟨onTrue, mid', fewer₁, htrue, hy⟩ := yields_bind.mp hy
      obtain ⟨_, mid'', fewer₂, hcolon, hy⟩ := yields_bind.mp hy
      obtain ⟨onFalse, rest', fewer₃, hfalse, hdone⟩ := yields_bind.mp hy
      obtain ⟨rfl, rfl⟩ := yields_pure.mp hdone
      obtain rfl : mid' = .sign .colon :: mid'' :=
        yields_colon.mp ⟨fewer₂, hcolon⟩
      exact Or.inl ⟨_, onTrue, mid'', onFalse, _, _, rfl, ⟨fewer₁, htrue⟩,
        ⟨fewer₃, hfalse⟩, rfl⟩
    · next hmid =>
        obtain ⟨rfl, rfl⟩ := yields_pure.mp hy
        refine Or.inr ⟨fun hhead => ?_, rfl, rfl⟩
        obtain ⟨tail, rfl⟩ := List.head?_eq_some_iff.mp hhead
        exact hmid tail _ rfl HEq.rfl
  · rintro ⟨condition, mid, ⟨fewer, hcondition⟩, hmid⟩
    refine yields_bind.mpr ⟨_, _, fewer, hcondition, ?_⟩
    rcases hmid with ⟨tail, onTrue, mid', onFalse, h₁, h₂, rfl, ⟨fewer₁, htrue⟩,
      ⟨fewer₃, hfalse⟩, rfl⟩ | ⟨hhead, rfl, rfl⟩
    · refine yields_bind.mpr ⟨_, _, fewer₁, htrue, ?_⟩
      obtain ⟨fewer₂, hcolon⟩ := (yields_colon (u := ())).mpr (rfl : _ = .sign .colon :: mid')
      refine yields_bind.mpr ⟨_, _, fewer₂, hcolon, ?_⟩
      refine yields_bind.mpr ⟨_, _, fewer₃, hfalse, ?_⟩
      exact yields_pure.mpr ⟨rfl, rfl⟩
    · dsimp only
      split
      · exact absurd rfl hhead
      · exact yields_pure.mpr ⟨rfl, rfl⟩

/-- The expressions nested in one of `n` tokens. -/
def inner (n : Nat) : Reader Expr n := fun ts _ => expression ts

theorem yields_expression {ts : List Token} {a : Expr} {rest : List Token} :
    Yields (expression ts) a rest ↔
      Yields (conditional (inner ts.length) ts (Nat.lt_succ_self _)) a rest := by
  rw [expression]
  rfl

theorem yields_assignment {ts : List Token} {a : Expr} {rest : List Token} :
    Yields (assignment ts) a rest ↔
      ∃ target mid, Yields (expression ts) target mid ∧
        ((∃ tail value, mid = .assign :: tail ∧ Yields (assignment tail) value rest ∧
            a = .assign target value) ∨
          (mid.head? ≠ some .assign ∧ a = target ∧ rest = mid)) := by
  rw [assignment]
  constructor
  · intro hy
    obtain ⟨target, mid, fewer, htarget, hy⟩ := yields_bind.mp hy
    refine ⟨target, mid, ⟨fewer, htarget⟩, ?_⟩
    dsimp only at hy
    split at hy
    · obtain ⟨value, rest', fewer', hvalue, hdone⟩ := yields_bind.mp hy
      obtain ⟨rfl, rfl⟩ := yields_pure.mp hdone
      exact Or.inl ⟨_, value, rfl, ⟨fewer', hvalue⟩, rfl⟩
    · next hmid =>
        obtain ⟨rfl, rfl⟩ := yields_pure.mp hy
        refine Or.inr ⟨fun hhead => ?_, rfl, rfl⟩
        obtain ⟨tail, rfl⟩ := List.head?_eq_some_iff.mp hhead
        exact hmid tail _ rfl HEq.rfl
  · rintro ⟨target, mid, ⟨fewer, htarget⟩, hmid⟩
    refine yields_bind.mpr ⟨_, _, fewer, htarget, ?_⟩
    rcases hmid with ⟨tail, value, rfl, ⟨fewer', hvalue⟩, rfl⟩ | ⟨hhead, rfl, rfl⟩
    · refine yields_bind.mpr ⟨_, _, fewer', hvalue, ?_⟩
      exact yields_pure.mpr ⟨rfl, rfl⟩
    · dsimp only
      split
      · exact absurd rfl hhead
      · exact yields_pure.mpr ⟨rfl, rfl⟩

theorem yields_declaration {ts : List Token} {a : Expr} {rest : List Token} :
    Yields (declaration ts) a rest ↔
      ∃ name tail params mid body,
        ts = .identifier name :: .leftParen :: tail ∧
        Yields (listInParens identifier tail (Nat.lt_succ_self _)) params
          (.assign :: mid) ∧
        Yields (expression mid) body rest ∧ a = .declare name params body := by
  unfold declaration
  constructor
  · intro hy
    obtain ⟨name, mid₁, fewer₁, hname, hy⟩ := yields_bind.mp hy
    obtain ⟨_, mid₂, fewer₂, hopen, hy⟩ := yields_bind.mp hy
    obtain ⟨params, mid₃, fewer₃, hparams, hy⟩ := yields_bind.mp hy
    obtain ⟨_, mid₄, fewer₄, hequals, hy⟩ := yields_bind.mp hy
    obtain ⟨body, rest', fewer₅, hbody, hdone⟩ := yields_bind.mp hy
    obtain ⟨rfl, rfl⟩ := yields_pure.mp hdone
    obtain rfl := yields_identifier.mp ⟨fewer₁, hname⟩
    obtain rfl : mid₁ = .leftParen :: mid₂ :=
      yields_expect.mp ⟨fewer₂, hopen⟩
    obtain rfl : mid₃ = .assign :: mid₄ :=
      yields_expect.mp ⟨fewer₄, hequals⟩
    exact ⟨name, mid₂, params, mid₄, body, rfl, ⟨fewer₃, hparams⟩,
      ⟨fewer₅, hbody⟩, rfl⟩
  · rintro ⟨name, tail, params, mid, body, rfl, ⟨fewer₃, hparams⟩,
      ⟨fewer₅, hbody⟩, rfl⟩
    obtain ⟨fewer₁, hname⟩ := yields_identifier.mpr
      (rfl : _ = .identifier name :: .leftParen :: tail)
    refine yields_bind.mpr ⟨_, _, fewer₁, hname, ?_⟩
    obtain ⟨fewer₂, hopen⟩ := (yields_expect (u := ())).mpr (rfl : _ = .leftParen :: tail)
    refine yields_bind.mpr ⟨_, _, fewer₂, hopen, ?_⟩
    refine yields_bind.mpr ⟨_, _, fewer₃, hparams, ?_⟩
    obtain ⟨fewer₄, hequals⟩ := (yields_expect (u := ())).mpr (rfl : _ = .assign :: mid)
    refine yields_bind.mpr ⟨_, _, fewer₄, hequals, ?_⟩
    refine yields_bind.mpr ⟨_, _, fewer₅, hbody, ?_⟩
    exact yields_pure.mpr ⟨rfl, rfl⟩

theorem yields_statement {ts : List Token} {a : Expr} {rest : List Token} :
    Yields (statement ts) a rest ↔
      (∃ tail, ts = .keywordFn :: tail ∧ Yields (declaration tail) a rest) ∨
        (ts.head? ≠ some .keywordFn ∧ Yields (assignment ts) a rest) := by
  unfold statement
  split
  · next tail =>
      constructor
      · intro hy
        obtain ⟨result, rest', fewer, hresult, hdone⟩ := yields_bind.mp hy
        obtain ⟨rfl, rfl⟩ := yields_pure.mp hdone
        exact Or.inl ⟨tail, rfl, ⟨fewer, hresult⟩⟩
      · rintro (⟨tail', heq, ⟨fewer, hresult⟩⟩ | ⟨hhead, _⟩)
        · cases heq
          refine yields_bind.mpr ⟨_, _, fewer, hresult, ?_⟩
          exact yields_pure.mpr ⟨rfl, rfl⟩
        · exact absurd rfl hhead
  · next hfn =>
      have hhead : ts.head? ≠ some .keywordFn := by
        intro heq
        obtain ⟨tail, rfl⟩ := List.head?_eq_some_iff.mp heq
        exact hfn tail rfl
      constructor
      · exact fun hy => Or.inr ⟨hhead, hy⟩
      · rintro (⟨tail, rfl, _⟩ | ⟨_, hy⟩)
        · exact absurd rfl hhead
        · exact hy

theorem parse_eq_ok_iff (ts : List Token) (a : Expr) :
    Expr.parse ts = .ok a ↔ ∃ rest, Yields (statement ts) a (.endOfInput :: rest) := by
  unfold Expr.parse
  cases statement ts with
  | error e =>
      constructor
      · intro h
        cases h
      · exact fun ⟨_, h⟩ => absurd h not_yields_error
  | ok p =>
      obtain ⟨value, rest, fewer⟩ := p
      simp only [yields_ok]
      constructor
      · intro h
        rcases rest with _ | ⟨t, tail⟩
        · cases h
        · cases t with
          | endOfInput =>
              cases h
              exact ⟨tail, rfl, rfl⟩
          | _ => cases h
      · rintro ⟨rest', rfl, rfl⟩
        rfl

end UnitCalc.Grammar
