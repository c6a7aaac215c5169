import Mathlib.Data.List.Infix
import RecordGraph.Proofs.Query.SameText

/-!
# Searching by pattern

A search for a text is written as a match with a pattern: the wildcards in the text are escaped, and
a `%` of its own stands where anything may be.

**Results.**
* `Pattern.likes`: matching with a pattern whose escape character is the backslash.
* `Pattern.likes_escaped_append`: an escaped text matches itself and nothing else.
* `Node.search_finds`: so the pattern of an operator that searches for a text finds just what the
  operator says, whatever the text is.
-/
namespace RecordGraph

namespace Pattern

/-- A text whose first character is accepted and whose others match. -/
def first (accepts : Char → Bool) (rest : List Char → Bool) : List Char → Bool
  | [] => false
  | c :: text => accepts c && rest text

/-- A text matches a pattern: `%` matches any text, `_` any character, a backslash the character
that follows it, and any other character itself. -/
def likes : List Char → List Char → Bool
  | [] => List.isEmpty
  | '%' :: pattern => fun text => text.tails.any (likes pattern)
  | '_' :: pattern => first (fun _ => true) (likes pattern)
  | '\\' :: c :: pattern => first (· == c) (likes pattern)
  | c :: pattern => first (· == c) (likes pattern)

theorem first_eq_true_iff {c : Char} {rest : List Char → Bool} {text : List Char} :
    first (· == c) rest text = true ↔ ∃ text', text = c :: text' ∧ rest text' = true := by
  cases text with
  | nil => simp [first]
  | cons d text => simp [first, and_assoc]

theorem likes_nil {text : List Char} : likes [] text = true ↔ text = [] := List.isEmpty_iff

/-- A `%` lets any text go before what the rest of the pattern matches. -/
theorem likes_any {pattern text : List Char} :
    likes ('%' :: pattern) text = true ↔ ∃ rest, rest <:+ text ∧ likes pattern rest = true := by
  simp [likes]

theorem likes_any_nil (text : List Char) : likes ['%'] text = true :=
  likes_any.2 ⟨[], List.nil_suffix, likes_nil.2 rfl⟩

/-- A character that is escaped where it has to be matches itself. -/
theorem likes_escape {c : Char} {pattern text : List Char} :
    likes ('\\' :: c :: pattern) text = true ↔
      ∃ text', text = c :: text' ∧ likes pattern text' = true := first_eq_true_iff

theorem likes_plain {c : Char} (hc : ¬(c = '\\' ∨ c = '%' ∨ c = '_')) {pattern text : List Char} :
    likes (c :: pattern) text = true ↔
      ∃ text', text = c :: text' ∧ likes pattern text' = true := by
  obtain ⟨hescape, hany, hone⟩ : c ≠ '\\' ∧ c ≠ '%' ∧ c ≠ '_' := by simpa only [not_or] using hc
  rw [likes, first_eq_true_iff] <;> simp [hescape, hany, hone]

/-- An escaped text matches itself, and nothing else. -/
theorem likes_escaped_append (needle : List Char) {pattern text : List Char} :
    likes (PairForm.escaped needle ++ pattern) text = true ↔
      ∃ rest, text = needle ++ rest ∧ likes pattern rest = true := by
  induction needle generalizing text with
  | nil => simp [PairForm.escaped]
  | cons c needle ih =>
    have hstep : likes (PairForm.escaped (c :: needle) ++ pattern) text = true ↔
        ∃ text', text = c :: text' ∧ likes (PairForm.escaped needle ++ pattern) text' = true := by
      rw [PairForm.escaped]
      split
      · exact likes_escape
      · rename_i hc
        simp only [Bool.or_eq_true, decide_eq_true_eq, or_assoc] at hc
        exact likes_plain hc
    rw [hstep]
    constructor
    · rintro ⟨text', rfl, h⟩
      obtain ⟨rest, rfl, hrest⟩ := ih.1 h
      exact ⟨rest, rfl, hrest⟩
    · rintro ⟨rest, rfl, hrest⟩
      exact ⟨needle ++ rest, rfl, ih.2 ⟨rest, rfl, hrest⟩⟩

theorem likes_escaped {needle text : List Char} :
    likes (PairForm.escaped needle) text = true ↔ text = needle := by
  rw [← List.append_nil (PairForm.escaped needle), likes_escaped_append]
  constructor
  · rintro ⟨rest, rfl, h⟩
    rw [likes_nil.1 h, List.append_nil]
  · rintro rfl
    exact ⟨[], (List.append_nil _).symm, likes_nil.2 rfl⟩

theorem likes_prefix {needle text : List Char} :
    likes (PairForm.escaped needle ++ ['%']) text = true ↔ needle <+: text := by
  rw [likes_escaped_append]
  constructor
  · rintro ⟨rest, rfl, -⟩
    exact List.prefix_append needle rest
  · rintro ⟨rest, rfl⟩
    exact ⟨rest, rfl, likes_any_nil rest⟩

theorem likes_suffix {needle text : List Char} :
    likes ('%' :: PairForm.escaped needle) text = true ↔ needle <:+ text := by
  simp only [likes_any, likes_escaped, exists_eq_right]

theorem likes_infix {needle text : List Char} :
    likes ('%' :: (PairForm.escaped needle ++ ['%'])) text = true ↔ needle <:+: text := by
  simp only [likes_any, likes_prefix]
  rw [List.infix_iff_prefix_suffix]
  simp only [and_comm]

end Pattern

/-- What an operator that searches for a text says of the text that it searches. -/
def Op.Finds (op : Op) (needle text : String) : Prop :=
  match op with
  | .startsWith => needle.toList <+: text.toList
  | .endsWith => needle.toList <:+ text.toList
  | .contains => needle.toList <:+: text.toList
  | _ => False

instance (op : Op) (needle text : String) : Decidable (op.Finds needle text) := by
  unfold Op.Finds
  split <;> infer_instance

/-- The pattern of a search matches what is to be found. -/
theorem PairForm.patternOf?_finds {op : Op} {needle pattern : String}
    (h : patternOf? op needle = some pattern) (text : String) :
    Pattern.likes pattern.toList text.toList = true ↔ op.Finds needle text := by
  cases op <;> cases h
  · simp [Op.Finds, Pattern.likes_prefix]
  · simp [Op.Finds, Pattern.likes_suffix]
  · simp [Op.Finds, Pattern.likes_infix]

namespace Node

/-- **A search finds the texts that it is for.** In every dialect, an operator that searches for a
text becomes a match of its subject with one argument, with the escape character of the dialect. As
a pattern, the argument matches exactly the texts that start with the text, end with it or contain
it, whatever is in it. -/
theorem search_finds (d : Dialect) {op : Op} (hop : op.searches = true) (subject : Node)
    (needle : String) : ∃ pattern : String,
      (∀ s, (operation op [subject, value (.text needle)]).resolver d s = do
        let x ← subject.resolver d s
        pure (.apply op [x, .param (.text pattern)])) ∧
      (∀ x : Expr, (Expr.apply op [x, .param (.text pattern)]).sql d =
        (Op.infixed "LIKE" (x.sql d) (.param (.text pattern))).pushRaw (" ESCAPE " ++ d.likeEscape)) ∧
      ∀ text : String, Pattern.likes pattern.toList text.toList = true ↔ op.Finds needle text := by
  obtain ⟨pattern, hpattern⟩ :=
    Option.isSome_iff_exists.1 ((PairForm.patternOf?_isSome op needle).trans hop)
  refine ⟨pattern, fun s => ?_, fun x => ?_, PairForm.patternOf?_finds hpattern⟩
  · have hform : PairForm.of op subject (value (.text needle)) = .pattern pattern := by
      cases op <;> cases hpattern <;> rfl
    rw [resolver, hform]
  · cases op <;> cases hop <;> cases d <;> rfl

/-- Wildcards in the text that is searched for are characters like others. -/
theorem search_finds_wildcards : Op.searches .startsWith = true ∧ ∃ pattern : String,
    (∀ s, (operation .startsWith [value .null, value (.text "50%_")]).resolver .sqlite s =
      pure (.apply .startsWith [.param .null, .param (.text pattern)])) ∧
    Pattern.likes pattern.toList "50%_ off".toList = true ∧
    Pattern.likes pattern.toList "500 off".toList = false := by
  have hop : Op.searches .startsWith = true := rfl
  obtain ⟨pattern, hbound, -, hfinds⟩ := search_finds .sqlite hop (value .null) "50%_"
  refine ⟨hop, pattern, fun s => ?_, (hfinds _).2 (by decide +kernel),
    Bool.eq_false_iff.2 fun h => absurd ((hfinds _).1 h) (by decide +kernel)⟩
  rw [hbound, resolver]
  rfl

end Node

end RecordGraph
