import CallBy.Expr.Parser

/-!
The grammar of expressions over tokens, with the expression that every phrase spells.

Chains of operands are stratified by how tightly their operators bind: `Phrase.bin p` for those of
strength `p` and more, up to `Phrase.bin 6` for a single term. A block (`if`, `let`, `map`) may be
the last operand of a chain and extends as far as it can, so a chain that ends in one is no left
operand; the flag of `Phrase.bin` and `Phrase.term` says whether the phrase ends in a block.

* `Derives c ts e`: the tokens `ts` are a phrase of the kind `c` that spells `e`;
* `Derives.starts`: what a phrase can begin with;
* `Derives.loosen`: tight chains are loose ones.
-/

namespace CallBy

open Phrases (keyword symbol opensBlock)

/-- The name as a token. -/
def ident (x : String) : Token := ⟨.id, x⟩

/-- Lists of tokens with commas between them. -/
def separated : List (List Token) → List Token
  | [] => []
  | ts :: tss => ts ++ tss.flatMap (symbol "," :: ·)

/-- The tokens of a definition, given the name and the tokens of its expression. -/
def definition (x : String) (ts : List Token) : List Token :=
  ident x :: symbol ":=" :: ts ++ [symbol ";"]

/-- The constant that a literal word stands for. -/
def constantOf (s : String) : Expr := if s = "null" then .null else .bool (s = "true")

/-- The kinds of phrase. -/
inductive Phrase where
  | exp
  | block
  | bin (p : Nat) (endsInBlock : Bool)
  | term (endsInBlock : Bool)
  /-- A factor with argument lists after it. -/
  | calls
  | factor

/-- **The tokens are a phrase of this kind and spell the expression.** -/
inductive Derives : Phrase → List Token → Expr → Prop
  | ofBlock {ts : List Token} {e : Expr} : Derives .block ts e → Derives .exp ts e
  | ofBin {b : Bool} {ts : List Token} {e : Expr} : Derives (.bin 1 b) ts e → Derives .exp ts e
  | ite {ts us vs : List Token} {t c a : Expr} : Derives .exp ts t → Derives .exp us c →
      Derives .exp vs a →
      Derives .block (keyword "if" :: ts ++ keyword "then" :: us ++ keyword "else" :: vs)
        (.ite t c a)
  | letIn {ds : List (String × List Token × Expr)} {ts : List Token} {e : Expr} : ds ≠ [] →
      (ds.map (·.1)).Nodup → (∀ d ∈ ds, Derives .exp d.2.1 d.2.2) → Derives .exp ts e →
      Derives .block
        (keyword "let" :: ds.flatMap (fun d => definition d.1 d.2.1) ++ keyword "in" :: ts)
        (.letIn (ds.map fun d => (d.1, d.2.2)) e)
  | map {xs : List String} {ts : List Token} {e : Expr} : xs.Nodup → Derives .exp ts e →
      Derives .block (keyword "map" :: separated (xs.map ([ident ·])) ++ keyword "to" :: ts)
        (.map xs e)
  | tighter {p : Nat} {b : Bool} {ts : List Token} {e : Expr} : 1 ≤ p → p ≤ 5 →
      Derives (.bin (p + 1) b) ts e → Derives (.bin p b) ts e
  | binary {p : Nat} {b : Bool} {op : String} {ts us : List Token} {l r : Expr} :
      precedence? op = some p → Derives (.bin p false) ts l → Derives (.bin (p + 1) b) us r →
      Derives (.bin p b) (ts ++ symbol op :: us) (.binary op l r)
  | binaryBlock {p : Nat} {op : String} {ts us : List Token} {l r : Expr} :
      precedence? op = some p → Derives (.bin p false) ts l → Derives .block us r →
      Derives (.bin p true) (ts ++ symbol op :: us) (.binary op l r)
  | ofTerm {b : Bool} {ts : List Token} {e : Expr} : Derives (.term b) ts e →
      Derives (.bin 6 b) ts e
  | unary {b : Bool} {op : String} {ts : List Token} {e : Expr} :
      (UnaryOp.ofSymbol? op).isSome = true → Derives (.term b) ts e →
      Derives (.term b) (symbol op :: ts) (.unary op e)
  | unaryBlock {op : String} {ts : List Token} {e : Expr} :
      (UnaryOp.ofSymbol? op).isSome = true → Derives .block ts e →
      Derives (.term true) (symbol op :: ts) (.unary op e)
  | ofCalls {ts : List Token} {e : Expr} : Derives .calls ts e → Derives (.term false) ts e
  | app {ts : List Token} {e : Expr} {as : List (List Token × Expr)} : Derives .calls ts e →
      (∀ a ∈ as, Derives .exp a.1 a.2) →
      Derives .calls (ts ++ symbol "(" :: separated (as.map (·.1)) ++ [symbol ")"])
        (.app e (as.map (·.2)))
  | ofFactor {ts : List Token} {e : Expr} : Derives .factor ts e → Derives .calls ts e
  | paren {ts : List Token} {e : Expr} : Derives .exp ts e →
      Derives .factor (symbol "(" :: ts ++ [symbol ")"]) e
  | int (s : String) : Derives .factor [⟨.int, s⟩] (.int (Text.decimal s.toList))
  | literal (s : String) : Derives .factor [⟨.literal, s⟩] (constantOf s)
  | prim {s : String} {p : Prim} : Prim.ofName? s = some p → Derives .factor [⟨.prim, s⟩] (.prim p)
  | var (x : String) : Derives .factor [ident x] (.var x)

/-! ### How phrases begin -/

/-- What a phrase of this kind can begin with, other than a closing parenthesis. -/
def Phrase.Starts : Phrase → Token → Prop
  | exp, _ => True
  | block, t => opensBlock t = true
  | bin _ _, t | term _, t => opensBlock t = false
  | calls, t | factor, t => opensBlock t = false ∧
      ∀ op, t = symbol op → (UnaryOp.ofSymbol? op).isSome = false

theorem Derives.starts {c : Phrase} {ts : List Token} {e : Expr} (h : Derives c ts e) :
    ∃ t us, ts = t :: us ∧ t ≠ symbol ")" ∧ c.Starts t := by
  induction h with
  | ofBlock _ ih | ofBin _ ih =>
    obtain ⟨t, us, hts, hne, -⟩ := ih
    exact ⟨t, us, hts, hne, trivial⟩
  | ite | letIn | map => exact ⟨_, _, rfl, nofun, rfl⟩
  | tighter _ _ _ ih | ofTerm _ ih | ofFactor _ ih => exact ih
  | ofCalls _ ih =>
    obtain ⟨t, us, hts, hne, ht, -⟩ := ih
    exact ⟨t, us, hts, hne, ht⟩
  | binary _ _ _ ih _ | binaryBlock _ _ _ ih _ | app _ _ ih _ =>
    obtain ⟨t, us, rfl, hne, ht⟩ := ih
    exact ⟨t, _, rfl, hne, ht⟩
  | unary hop | unaryBlock hop =>
    refine ⟨_, _, rfl, ?_, by simp [Phrase.Starts, opensBlock, symbol, keyword]⟩
    intro hclose
    cases hclose
    revert hop
    decide
  | paren _ _ =>
    refine ⟨_, _, rfl, by decide, by decide, fun op hop => ?_⟩
    cases hop
    decide
  | int | literal | prim | var =>
    refine ⟨_, _, rfl, nofun, by simp [opensBlock, keyword, ident], fun op hop => ?_⟩
    cases hop

/-! ### How tightly chains bind -/

theorem precedence?_bounds {op : String} {p : Nat} (h : precedence? op = some p) :
    1 ≤ p ∧ p ≤ 5 := by
  unfold precedence? at h
  split at h <;> cases h <;> decide

/-- A tight chain is a loose one. -/
theorem Derives.loosen {p q : Nat} {b : Bool} {ts : List Token} {e : Expr} (hp : 1 ≤ p)
    (hpq : p ≤ q) (hq : q ≤ 6) (h : Derives (.bin q b) ts e) : Derives (.bin p b) ts e := by
  obtain ⟨k, rfl⟩ : ∃ k, q = p + k := ⟨q - p, by omega⟩
  induction k with
  | zero => exact h
  | succ k ih => exact ih (by omega) (by omega) (.tighter (by omega) (by omega) h)

end CallBy
