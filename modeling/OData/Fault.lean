import OData.Text.Decimal

/-!
# Faults and error records

A `Fault` is the cause for which a clause is refused; a `QueryError` is what a query carries about
it, a code and a message in words.
-/

namespace OData

/-- Why a clause is refused. -/
inductive Fault where
  /-- The expand clause is no list of names and groups. -/
  | malformedExpand
  /-- A group has no closing parenthesis. -/
  | unclosedGroup
  /-- A group has neither a field list nor an expand clause. -/
  | emptyGroup
  /-- The field list holds something other than names and `*`. -/
  | malformedSelect
  /-- A group stands deeper than `limit` groups. -/
  | tooDeep (limit : Nat)
deriving DecidableEq

/-- The fault in words. -/
def Fault.message : Fault → String
  | .malformedExpand => "invalid expand expression"
  | .unclosedGroup => "no closing bracket found"
  | .emptyGroup => "Empty expand"
  | .malformedSelect => "invalid select expression"
  | .tooDeep limit => "expand depth limit exceeded (" ++ String.ofList (Text.digits limit) ++ ")"

/-- The codes of error records. -/
inductive ErrorCode where
  /-- The query does not follow the grammar. -/
  | badQuery
deriving DecidableEq, Inhabited

/-- The written form of a code. -/
def ErrorCode.text : ErrorCode → String
  | .badQuery => "0x0"

/-- An error record. -/
structure QueryError where
  code : ErrorCode := .badQuery
  message : String
deriving DecidableEq

/-- The record in one line. -/
def QueryError.describe (error : QueryError) : String :=
  "ODataError(" ++ error.code.text ++ "): " ++ error.message

/-- The record of a fault. -/
def Fault.toError (fault : Fault) : QueryError := ⟨.badQuery, fault.message⟩

end OData
