import FsCore.Binary64

namespace FsCore

/-- A column or a bound parameter of an SQL statement. -/
inductive SqlValue where
  | null
  | integer (i : Nat)
  | real (x : Binary64)
  | text (t : List Char)
deriving DecidableEq

/-- Binding a NaN binds NULL. -/
def SqlValue.ofDouble (x : Binary64) : SqlValue := if x.isNaN then .null else .real x

/-- `=` on operands of one type. NULL equals nothing, so that the result counts as false. -/
def SqlValue.eq : SqlValue → SqlValue → Bool
  | .integer i, .integer j => i == j
  | .text s, .text t => s == t
  | .real x, .real y => x.le y && y.le x
  | _, _ => false

def SqlValue.le : SqlValue → SqlValue → Bool
  | .integer i, .integer j => decide (i ≤ j)
  | .real x, .real y => x.le y
  | _, _ => false

/-- One conjunct of a WHERE clause over rows `ρ`, with its `?` placeholders. -/
inductive Conjunct (ρ : Type) where
  /-- `column IN (?,?,…)` -/
  | among (column : ρ → SqlValue) (count : Nat)
  /-- `column = literal` -/
  | equals (column : ρ → SqlValue) (value : SqlValue)
  /-- `column BETWEEN ? AND ?` -/
  | between (column : ρ → SqlValue)

def Conjunct.arity {ρ : Type} : Conjunct ρ → Nat
  | .among _ count => count
  | .equals _ _ => 0
  | .between _ => 2

/-- Truth of a conjunct at a row, given the values of its own placeholders. -/
def Conjunct.holds {ρ : Type} (row : ρ) (params : List SqlValue) : Conjunct ρ → Bool
  | .among column _ => params.any (fun p => (column row).eq p)
  | .equals column value => (column row).eq value
  | .between column =>
    match params with
    | [low, high] => low.le (column row) && (column row).le high
    | _ => false

/-- A WHERE clause takes its parameters from one list, from left to right. -/
def whereHolds {ρ : Type} (row : ρ) : List (Conjunct ρ) → List SqlValue → Bool
  | [], _ => true
  | c :: cs, params =>
    c.holds row (params.take c.arity) && whereHolds row cs (params.drop c.arity)

@[simp] theorem whereHolds_nil {ρ : Type} (row : ρ) (params : List SqlValue) :
    whereHolds row [] params = true := rfl

/-- A conjunct reads the parameters bound for it when the counts agree. -/
theorem whereHolds_cons {ρ : Type} (row : ρ) {c : Conjunct ρ} (cs : List (Conjunct ρ))
    {own : List SqlValue} (rest : List SqlValue) (h : own.length = c.arity) :
    whereHolds row (c :: cs) (own ++ rest) = (c.holds row own && whereHolds row cs rest) := by
  simp only [whereHolds, ← h, List.take_left, List.drop_left]

end FsCore
