import OData.Expand.Clause

/-!
# Reading queries

A query is filled part by part. Reading a part tells whether it was refused; the error record then
stands in the query, and what becomes of the part differs.

* a refused field list leaves the fields as they were; options without one unset them
* a refused expand clause unsets the related entities; options without one leave them as they were

A query read as a whole stops at the first refusal and keeps nothing but the error.
-/

namespace OData.Query

/-- Reads the field list of the options into the query. The flag tells whether it was refused. -/
def readSelect (options : Options) (query : Query) : Bool × Query :=
  match Select.ofOptions options with
  | .ok select => (false, { query with select })
  | .error fault => (true, { query with error := some fault.toError })

/-- Reads the expand clause of the options into the query. The flag tells whether it was refused. -/
def readExpand (limit : DepthLimit) (options : Options) (query : Query) : Bool × Query :=
  match options.first? Options.expandKey with
  | none => (false, query)
  | some clause =>
    match Expand.parse limit clause with
    | .ok map => (false, { query with expand := some map })
    | .error fault => (true, { query with expand := none, error := some fault.toError })

/-- The query that options describe. -/
def ofOptions (limit : DepthLimit) (options : Options) : Query :=
  if options.isEmpty then {}
  else
    let (refused, query) := readSelect options {}
    if refused then { error := query.error }
    else
      let (refused, query) := readExpand limit options query
      if refused then { error := query.error } else query

/-- The query that a query string describes, with groups of any depth. -/
def ofText (text : List Char) : Query := ofOptions none (.ofQuery text)

end OData.Query
