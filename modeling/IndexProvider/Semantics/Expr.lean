import IndexProvider.Semantics.Filter

/-!
This module contains the values of expressions on table rows, over any interpretation of the operators.
-/

namespace IndexProvider

-- A row of the table, as far as filters can see it: the value of each column.
abbrev TableRow (W : Type) := String → W

/--
An interpretation of expressions by values in `W`. What is not a function of its operands, such as a
volatile function, may look at anything: here at the row.
-/
structure ExprSemantics (W : Type) where
  literal : ScalarValue → W
  binary : Operator → W → W → W
  node : ExprKind → List W → W
  contextual : ExprKind → List W → TableRow W → W
  truth : W → Option Bool

def ExprKind.isContextual : ExprKind → Bool
  | .scalarFunction _ volatile => volatile
  | .scalarVariable => true
  | .outerReferenceColumn _ => true
  | .subquery _ => true
  | _ => false

namespace Expr

variable {W : Type}

mutual

def eval (sem : ExprSemantics W) (row : TableRow W) : Expr → W
  | .column col => row col.name
  | .literal value => sem.literal value
  | .binaryExpr left op right => sem.binary op (eval sem row left) (eval sem row right)
  | .node kind args =>
    if kind.isContextual then
      sem.contextual kind (evalAll sem row args) row
    else
      sem.node kind (evalAll sem row args)

def evalAll (sem : ExprSemantics W) (row : TableRow W) : List Expr → List W
  | [] => []
  | arg :: args => eval sem row arg :: evalAll sem row args

end

mutual

-- No volatile function, subquery, outer reference or session variable.
def Determined : Expr → Prop
  | .column _ => True
  | .literal _ => True
  | .binaryExpr left _ right => Determined left ∧ Determined right
  | .node kind args => kind.isContextual = false ∧ AllDetermined args

def AllDetermined : List Expr → Prop
  | [] => True
  | arg :: args => Determined arg ∧ AllDetermined args

end

def truthOn (sem : ExprSemantics W) (expr : Expr) (row : TableRow W) : Option Bool :=
  expr.truth (fun leaf row => sem.truth (leaf.eval sem row)) row

end Expr

end IndexProvider
