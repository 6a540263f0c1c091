import OData.Proofs.Options

/-!
# The two separators of a group

A group is cut twice: at each `;` outside its parentheses, and then each segment at every `&`, which
is how a query string is cut. The first cut is not needed. A `;` that separates options might as
well be a `&`, and a group in which they are is a query string; nothing else tells the two apart but
the `?` that may stand in front of a query string. This holds of every text, also of one with a `)`
too many, behind which no group is open, or with a `(` too many, behind which nothing separates.

## Main statements

* `pairs_ofGroup_append_cons` — a `;` behind closed groups cuts the options in two
* `ofGroup_eq_ofQuery` — a group as a query string
-/

namespace OData

namespace Text

/-- The text with another character in place of each separator that stands where no group is open,
when `depth` are at first. -/
def replaceOutsideFrom (separator other : Char) : Nat → List Char → List Char
  | _, [] => []
  | depth, c :: rest =>
    (if c = separator ∧ depth = 0 then other else c) ::
      replaceOutsideFrom separator other (depthAfter depth c) rest

/-- The text with another character in place of each separator outside its parentheses. -/
def replaceOutside (separator other : Char) (text : List Char) : List Char :=
  replaceOutsideFrom separator other 0 text

variable {separator other : Char} {depth : Nat} {text : List Char}

theorem replaceOutsideFrom_append (a b : List Char) :
    replaceOutsideFrom separator other depth (a ++ b) =
      replaceOutsideFrom separator other depth a ++
        replaceOutsideFrom separator other (openAfter depth a) b := by
  induction a generalizing depth with
  | nil => rfl
  | cons c rest ih =>
    rw [List.cons_append, replaceOutsideFrom, replaceOutsideFrom, ih, openAfter_cons,
      List.cons_append]

theorem replaceOutsideFrom_of_not_standsOutside (h : ¬ StandsOutside separator depth text) :
    replaceOutsideFrom separator other depth text = text := by
  induction text generalizing depth with
  | nil => rfl
  | cons c rest ih =>
    rw [standsOutside_cons, not_or] at h
    rw [replaceOutsideFrom, if_neg h.1, ih h.2]

/-- **Nothing is replaced when nothing stands outside.** -/
theorem replaceOutside_of_not_standsOutside (h : ¬ StandsOutside separator 0 text) :
    replaceOutside separator other text = text :=
  replaceOutsideFrom_of_not_standsOutside h

/-- **A separator behind a text that leaves no group open is replaced.** -/
theorem replaceOutside_append_cons (hsep : separator ≠ '(' ∧ separator ≠ ')')
    (hclosed : openAfter 0 text = 0) (h : ¬ StandsOutside separator 0 text) (rest : List Char) :
    replaceOutside separator other (text ++ separator :: rest) =
      text ++ other :: replaceOutside separator other rest := by
  rw [replaceOutside, replaceOutsideFrom_append, replaceOutsideFrom_of_not_standsOutside h, hclosed,
    replaceOutsideFrom, if_pos ⟨rfl, rfl⟩, depthAfter_of_ne hsep, replaceOutside]

end Text

namespace Options

open Text

variable {text : List Char}

/-- **A `;` behind closed groups cuts the options in two.** -/
theorem pairs_ofGroup_append_cons (hclosed : openAfter 0 text = 0) (rest : List Char) :
    (ofGroup (text ++ ';' :: rest)).pairs = (ofGroup text).pairs ++ (ofGroup rest).pairs := by
  rw [ofGroup, splitOutside_append_separator (by decide) hclosed, List.flatMap_append]
  rfl

/-- **The pairs of a group are those of the text with `&` for each `;` outside parentheses.** -/
theorem pairs_ofGroup_eq (text : List Char) :
    (ofGroup text).pairs = Form.pairs (replaceOutside ';' '&' text) := by
  refine outside_induction ';' (P := fun text =>
    (ofGroup text).pairs = Form.pairs (replaceOutside ';' '&' text)) ?_ ?_ text
  · intro text h
    rw [pairs_ofGroup_of_not_standsOutside h, replaceOutside_of_not_standsOutside h]
  · intro piece rest hpiece hclosed ih
    rw [pairs_ofGroup_append_cons hclosed, pairs_ofGroup_of_not_standsOutside hpiece,
      replaceOutside_append_cons (by decide) hclosed hpiece, Form.pairs_append_cons, ih]

theorem ext_pairs {a b : Options} (h : a.pairs = b.pairs) : a = b := by
  cases a
  cases b
  exact congrArg _ h

/-- **The options of a group are those of the query string with `&` for each `;` outside
parentheses.** So a group without such a `;` is a query string as it is, unless it begins with `?`;
and where such a `;` stands behind a balanced text, the options of this text come first, then the
options of what follows. -/
theorem ofGroup_eq_ofQuery (text : List Char) :
    ofGroup text = ofQuery ('?' :: replaceOutside ';' '&' text) ∧
      (¬ StandsOutside ';' 0 text → text.head? ≠ some '?' → ofGroup text = ofQuery text) ∧
      (Balanced text → ∀ rest,
        (ofGroup (text ++ ';' :: rest)).pairs = (ofGroup text).pairs ++ (ofGroup rest).pairs) := by
  refine ⟨ext_pairs ?_, fun h hhead => ext_pairs ?_, fun h rest => ?_⟩
  · rw [pairs_ofGroup_eq, pairs_ofQuery_question]
  · rw [pairs_ofGroup_of_not_standsOutside h, pairs_ofQuery_of_head hhead]
  · exact pairs_ofGroup_append_cons (h.openAfter_eq 0) rest

/-- No group is open behind a `)` too many, so the `;` there separates, and the one behind a `(` too
many does not. A `;` inside parentheses stays, one behind them separates. -/
theorem ofGroup_eq_ofQuery_unbalanced :
    ofGroup "a=1);?b=(2;c".toList = ofQuery "?a=1)&?b=(2;c".toList ∧
      ofGroup "a=(1;2)&b".toList = ofQuery "a=(1;2)&b".toList ∧
      (ofGroup ("a=(1;2)&b".toList ++ ';' :: "c=)".toList)).pairs =
        [(['a'], "(1;2)".toList), (['b'], []), (['c'], [')'])] := by
  have hreplaced : replaceOutside ';' '&' "a=1);?b=(2;c".toList = "a=1)&?b=(2;c".toList := by
    decide
  have hgroup : Balanced ('(' :: "1;2".toList ++ [')']) :=
    (balanced_of_noParens (by simp [NoParens])).group
  have hfront : Balanced "a=".toList := balanced_of_noParens (by simp [NoParens])
  have hback : Balanced "&b".toList := balanced_of_noParens (by simp [NoParens])
  have hbalanced : Balanced "a=(1;2)&b".toList := (hfront.append hgroup).append hback
  have hinside : ¬ StandsOutside ';' 0 "a=(1;2)&b".toList := by
    simp [standsOutside_cons, not_standsOutside_nil, depthAfter]
  obtain ⟨hquery, -⟩ := ofGroup_eq_ofQuery "a=1);?b=(2;c".toList
  obtain ⟨-, hself, hcut⟩ := ofGroup_eq_ofQuery "a=(1;2)&b".toList
  rw [hreplaced] at hquery
  exact ⟨hquery, hself hinside (by decide), (hcut hbalanced _).trans (by decide +kernel)⟩

end Options

end OData
