import IndexProvider.Impl.Basic

/-!
This module contains the filter expressions the provider analyses and their truth in SQL's
three-valued logic.
-/

namespace IndexProvider

inductive Operator where
  | eq
  | notEq
  | lt
  | ltEq
  | gt
  | gtEq
  | plus
  | minus
  | multiply
  | divide
  | modulo
  | and
  | or
  | isDistinctFrom
  | isNotDistinctFrom
  | other (id : Nat)
  deriving DecidableEq, Repr

inductive ScalarValue where
  | null
  | boolean (v : Option Bool)
  | int32 (v : Option Int32)
  | int64 (v : Option Int64)
  | uint64 (v : Option UInt64)
  | utf8 (v : Option String)
  | other (type : DataType) (v : Option Nat)
  deriving DecidableEq, Repr

structure Column where
  relation : Option String
  name : String
  deriving DecidableEq, Repr

/--
The expressions below the `AND` / `OR` skeleton that are neither a column, nor a literal, nor a
binary operator. Their operands are the arguments of `Expr.node`, in the order the source lists
them.
-/
inductive ExprKind where
  | not
  | isNull
  | isNotNull
  | negative
  | between (negated : Bool)
  | inList (negated : Bool)
  | like (negated : Bool) (caseInsensitive : Bool)
  | case (hasExpr : Bool) (hasElse : Bool)
  | cast (type : DataType)
  | scalarFunction (name : String) (volatile : Bool)
  | scalarVariable
  | outerReferenceColumn (name : String)
  | subquery (id : Nat)
  -- Any other operator on its operands: `IS TRUE`, `SIMILAR TO`, an alias and so on.
  | other (name : String)
  deriving DecidableEq, Repr

inductive Expr where
  | column (col : Column)
  | literal (value : ScalarValue)
  | binaryExpr (left : Expr) (op : Operator) (right : Expr)
  | node (kind : ExprKind) (args : List Expr)
  deriving Repr

namespace Expr

@[elab_as_elim]
theorem induction {motive : Expr → Prop} (column : ∀ col, motive (.column col))
    (literal : ∀ value, motive (.literal value))
    (binaryExpr : ∀ left op right, motive left → motive right → motive (.binaryExpr left op right))
    (node : ∀ kind args, (∀ arg ∈ args, motive arg) → motive (.node kind args)) (expr : Expr)
    : motive expr := by
  refine @Expr.rec motive (fun args => ∀ arg ∈ args, motive arg) column literal binaryExpr node ?_ ?_
    expr
  . simp
  . intro head tail hhead htail arg harg
    cases harg with
    | head => exact hhead
    | tail _ harg => exact htail arg harg

mutual

/--
The columns an expression refers to. The columns of subqueries and of outer queries are not among them.
-/
def columns : Expr → List Column
  | .column col => [col]
  | .literal _ => []
  | .binaryExpr left _ right => columns left ++ columns right
  | .node _ args => allColumns args

def allColumns : List Expr → List Column
  | [] => []
  | arg :: args => columns arg ++ allColumns args

end

end Expr

-- `expr_to_columns` of DataFusion, which collects the columns of an expression or fails.
abbrev ExprToColumns := Expr → Result (List Column)

end IndexProvider
