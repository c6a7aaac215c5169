import RecordGraph.Sql.Select

/-!
# Formulas and their symbols

A formula is written without parentheses around comparisons, null tests and ranges, wherever they
stand. The symbols of a formula are read back from left to right, with what is still open on a
stack; an operator that brings no parentheses takes everything before it for its first operand.

**Results.**
* `Formula.regrouped`: a formula as it is read back.
* `Formula.read_tokens`: reading the symbols of a formula gives the regrouped formula.
* `Formula.tokens_eq_iff`: two formulas have the same symbols if they are regrouped to one.
* `Formula.regrouped_eq_iff`: nothing is regrouped just where no such operation is the last
  operand of another one.
-/
namespace RecordGraph

/-- Operators between two operands that bring no parentheses. -/
inductive Comparison where
  | eq | ne | gt | ge | lt | le | like
  deriving DecidableEq

/-- Operators between two operands that bring parentheses. -/
inductive Arithmetic where
  | add | sub | mul | div | mod
  deriving DecidableEq

/-- Operators between any number of operands. -/
inductive Connective where
  | and | or
  deriving DecidableEq

/-- An expression over columns: comparisons, null tests, ranges, and what combines them. -/
inductive Formula (κ : Type) where
  | column (k : κ)
  | compare (c : Comparison) (a b : Formula κ)
  | nullTest (isNull : Bool) (a : Formula κ)
  | between (a low high : Formula κ)
  | negate (a : Formula κ)
  | arithmetic (o : Arithmetic) (a b : Formula κ)
  | chain (c : Connective) (a b : Formula κ) (rest : List (Formula κ))

/-- What stands between the columns of a formula. -/
inductive Symbol where
  | compare (c : Comparison)
  | nullTest (isNull : Bool)
  | between
  | connective (c : Connective)
  | arithmetic (o : Arithmetic)
  /-- `NOT (` -/
  | not
  | opening
  | closing
  deriving DecidableEq

/-- A symbol or a column. -/
inductive Token (κ : Type) where
  | column (k : κ)
  | symbol (s : Symbol)

namespace Formula

variable {κ : Type}

mutual

/-- The symbols and columns of a formula, from left to right. -/
def tokens : Formula κ → List (Token κ)
  | column k => [.column k]
  | compare c a b => a.tokens ++ .symbol (.compare c) :: b.tokens
  | nullTest isNull a => a.tokens ++ [.symbol (.nullTest isNull)]
  | between a low high =>
    a.tokens ++ .symbol .between :: (low.tokens ++ .symbol (.connective .and) :: high.tokens)
  | negate a => .symbol .not :: (a.tokens ++ [.symbol .closing])
  | arithmetic o a b =>
    .symbol .opening :: (a.tokens ++ .symbol (.arithmetic o) :: (b.tokens ++ [.symbol .closing]))
  | chain c a b rest =>
    .symbol .opening :: (a.tokens
      ++ .symbol (.connective c) :: (b.tokens ++ (tokensAll c rest ++ [.symbol .closing])))

def tokensAll (c : Connective) : List (Formula κ) → List (Token κ)
  | [] => []
  | f :: rest => .symbol (.connective c) :: (f.tokens ++ tokensAll c rest)

end

/-! ## Regrouping -/

/-- What the next operand is for. -/
inductive Slot (κ : Type) where
  | whole
  | right (c : Comparison) (a : Formula κ)
  | high (a low : Formula κ)

/-- What becomes of an operand. -/
def Slot.fill : Slot κ → Formula κ → Formula κ
  | whole, f => f
  | right c a, f => .compare c a f
  | high a low, f => .between a low f

/-- What is written before the operand. -/
def Slot.tokens : Slot κ → List (Token κ)
  | whole => []
  | right c a => a.tokens ++ [.symbol (.compare c)]
  | high a low => a.tokens ++ .symbol .between :: (low.tokens ++ [.symbol (.connective .and)])

mutual

/-- A formula behind what stands before it. An operation without parentheses does not hold together:
its first operand goes to what stands before. -/
def behind : Formula κ → Slot κ → Formula κ
  | column k, slot => slot.fill (.column k)
  | compare c a b, slot => b.behind (.right c (a.behind slot))
  | nullTest isNull a, slot => .nullTest isNull (a.behind slot)
  | between a low high, slot => high.behind (.high (a.behind slot) (low.behind .whole))
  | negate a, slot => slot.fill (.negate (a.behind .whole))
  | arithmetic o a b, slot => slot.fill (.arithmetic o (a.behind .whole) (b.behind .whole))
  | chain c a b rest, slot =>
    slot.fill (.chain c (a.behind .whole) (b.behind .whole) (regroupAll rest))

def regroupAll : List (Formula κ) → List (Formula κ)
  | [] => []
  | f :: rest => f.behind .whole :: regroupAll rest

end

/-- A formula as it is read back: operations without parentheses are grouped to the left. -/
def regrouped (f : Formula κ) : Formula κ := f.behind .whole

/-- An operand is written behind what stands before it. -/
theorem tokens_fill : ∀ (slot : Slot κ) (f : Formula κ),
    (slot.fill f).tokens = slot.tokens ++ f.tokens
  | .whole, f => rfl
  | .right c a, f => by
    rw [Slot.fill, tokens, Slot.tokens]
    simp
  | .high a low, f => by
    rw [Slot.fill, tokens, Slot.tokens]
    simp

mutual

/-- Regrouping changes nothing of what is written. -/
theorem tokens_behind : ∀ (f : Formula κ) (slot : Slot κ),
    (f.behind slot).tokens = slot.tokens ++ f.tokens
  | column k, slot => by rw [behind]; exact tokens_fill slot _
  | compare c a b, slot => by
    rw [behind, tokens_behind b, Slot.tokens, tokens_behind a, tokens]
    simp
  | nullTest isNull a, slot => by
    rw [behind, tokens, tokens_behind a, tokens, List.append_assoc]
  | between a low high, slot => by
    rw [behind, tokens_behind high, Slot.tokens, tokens_behind a, tokens_behind low, tokens,
      Slot.tokens]
    simp
  | negate a, slot => by
    rw [behind, tokens_fill, tokens, tokens_behind a, tokens]
    rfl
  | arithmetic o a b, slot => by
    rw [behind, tokens_fill, tokens, tokens_behind a, tokens_behind b, tokens]
    rfl
  | chain c a b rest, slot => by
    rw [behind, tokens_fill, tokens, tokens_behind a, tokens_behind b, tokensAll_regroupAll, tokens]
    rfl

theorem tokensAll_regroupAll (c : Connective) : ∀ rest : List (Formula κ),
    tokensAll c (regroupAll rest) = tokensAll c rest
  | [] => by rw [regroupAll]
  | f :: rest => by
    rw [regroupAll, tokensAll, tokens_behind f, tokensAll_regroupAll c rest, tokensAll]
    rfl

end

/-! ## Reading -/

/-- What is still open around a formula that is being read. -/
inductive Frame (κ : Type) where
  /-- A range whose first operand was read. -/
  | low (a : Formula κ)
  /-- `NOT (` -/
  | negated (slot : Slot κ)
  /-- A parenthesis, with nothing read in it. -/
  | opened (slot : Slot κ)
  | arithmetic (slot : Slot κ) (o : Arithmetic) (a : Formula κ)
  /-- A parenthesis with operands, the first one and those behind it. -/
  | chain (slot : Slot κ) (c : Connective) (a : Formula κ) (done : List (Formula κ))

/-- A formula that is being read: an operand comes next, or one was read. -/
inductive Reading (κ : Type) where
  | wants (slot : Slot κ) (frames : List (Frame κ))
  | has (f : Formula κ) (frames : List (Frame κ))
  | stuck

/-- A chain of a first operand and those behind it. -/
def chainOf (c : Connective) (a : Formula κ) : List (Formula κ) → Formula κ
  | [] => a
  | b :: rest => .chain c a b rest

/-- One more symbol or column. -/
def Reading.step : Reading κ → Token κ → Reading κ
  | wants slot frames, .column k => has (slot.fill (.column k)) frames
  | wants slot frames, .symbol .not => wants .whole (.negated slot :: frames)
  | wants slot frames, .symbol .opening => wants .whole (.opened slot :: frames)
  | has f frames, .symbol (.compare c) => wants (.right c f) frames
  | has f frames, .symbol (.nullTest isNull) => has (.nullTest isNull f) frames
  | has f frames, .symbol .between => wants .whole (.low f :: frames)
  | has f (.low a :: frames), .symbol (.connective .and) => wants (.high a f) frames
  | has f (.opened slot :: frames), .symbol (.connective c) =>
    wants .whole (.chain slot c f [] :: frames)
  | has f (.opened slot :: frames), .symbol (.arithmetic o) =>
    wants .whole (.arithmetic slot o f :: frames)
  | has f (.chain slot c a done :: frames), .symbol (.connective _) =>
    wants .whole (.chain slot c a (done ++ [f]) :: frames)
  | has f (.negated slot :: frames), .symbol .closing => has (slot.fill (.negate f)) frames
  | has f (.arithmetic slot o a :: frames), .symbol .closing =>
    has (slot.fill (.arithmetic o a f)) frames
  | has f (.chain slot c a done :: frames), .symbol .closing =>
    has (slot.fill (chainOf c a (done ++ [f]))) frames
  | _, _ => stuck

/-- Symbols and columns, one after the other. -/
def Reading.read (r : Reading κ) (tokens : List (Token κ)) : Reading κ := tokens.foldl step r

theorem Reading.read_append (r : Reading κ) (as bs : List (Token κ)) :
    r.read (as ++ bs) = (r.read as).read bs := List.foldl_append

theorem Reading.read_cons (r : Reading κ) (a : Token κ) (as : List (Token κ)) :
    r.read (a :: as) = (r.step a).read as := rfl

theorem Reading.read_nil (r : Reading κ) : r.read [] = r := rfl

open Reading

mutual

/-- **Reading.** A formula is read behind what stands before it, whatever is open around it. -/
theorem read_tokens : ∀ (f : Formula κ) (slot : Slot κ) (frames : List (Frame κ)),
    (wants slot frames).read f.tokens = has (f.behind slot) frames
  | column k, slot, frames => by
    rw [tokens, behind]
    rfl
  | compare c a b, slot, frames => by
    rw [tokens, read_append, read_tokens a, read_cons, step, read_tokens b, behind]
  | nullTest isNull a, slot, frames => by
    rw [tokens, read_append, read_tokens a, read_cons, step, read_nil, behind]
  | between a low high, slot, frames => by
    rw [tokens, read_append, read_tokens a, read_cons, step, read_append, read_tokens low,
      read_cons, step, read_tokens high, behind]
  | negate a, slot, frames => by
    rw [tokens, read_cons, step, read_append, read_tokens a, read_cons, step, read_nil, behind]
  | arithmetic o a b, slot, frames => by
    rw [tokens, read_cons, step, read_append, read_tokens a, read_cons, step, read_append,
      read_tokens b, read_cons, step, read_nil, behind]
  | chain c a b rest, slot, frames => by
    obtain ⟨done, f, hread, hdone⟩ := read_tokensAll c rest slot frames (a.behind .whole) []
      (b.behind .whole)
    rw [tokens, read_cons, step, read_append, read_tokens a, read_cons, step, read_append,
      read_tokens b, read_append, hread, read_cons, step, read_nil, hdone, behind]
    rfl

/-- The operands of a chain after the first ones. -/
theorem read_tokensAll (c : Connective) : ∀ (rest : List (Formula κ)) (slot : Slot κ)
    (frames : List (Frame κ)) (a : Formula κ) (done : List (Formula κ)) (f : Formula κ),
    ∃ done' f', (has f (.chain slot c a done :: frames)).read (tokensAll c rest) =
        has f' (.chain slot c a done' :: frames) ∧
      done' ++ [f'] = done ++ f :: regroupAll rest
  | [], slot, frames, a, done, f => by
    rw [tokensAll, regroupAll]
    exact ⟨done, f, rfl, rfl⟩
  | g :: rest, slot, frames, a, done, f => by
    obtain ⟨done', f', hread, hdone⟩ := read_tokensAll c rest slot frames a (done ++ [f])
      (g.behind .whole)
    refine ⟨done', f', ?_, ?_⟩
    · rw [tokensAll, read_cons, step, read_append, read_tokens g, hread]
    · rw [hdone, regroupAll, List.append_assoc, List.singleton_append]

end

/-- **Symbols.** Two formulas have the same symbols if they are read back as one. -/
theorem tokens_eq_iff {f g : Formula κ} : f.tokens = g.tokens ↔ f.regrouped = g.regrouped := by
  constructor
  · intro h
    have hf := read_tokens f .whole []
    rw [h, read_tokens g] at hf
    exact (Reading.has.inj hf).1.symm
  · intro h
    have hf := tokens_behind f .whole
    have hg := tokens_behind g .whole
    rw [Slot.tokens, List.nil_append] at hf hg
    rw [← hf, ← hg]
    exact congrArg tokens h

/-! ## Formulas that are not regrouped -/

/-- An operation that brings no parentheses. -/
def isBare : Formula κ → Bool
  | compare .. | nullTest .. | between .. => true
  | _ => false

/-- The last operand of a comparison or of a range brings its own parentheses, everywhere in a
formula. -/
inductive Grouped : Formula κ → Prop where
  | column (k : κ) : Grouped (.column k)
  | compare (c : Comparison) {a b : Formula κ} : Grouped a → Grouped b → b.isBare = false →
      Grouped (.compare c a b)
  | nullTest (isNull : Bool) {a : Formula κ} : Grouped a → Grouped (.nullTest isNull a)
  | between {a low high : Formula κ} : Grouped a → Grouped low → Grouped high →
      high.isBare = false → Grouped (.between a low high)
  | negate {a : Formula κ} : Grouped a → Grouped (.negate a)
  | arithmetic (o : Arithmetic) {a b : Formula κ} : Grouped a → Grouped b →
      Grouped (.arithmetic o a b)
  | chain (c : Connective) {a b : Formula κ} {rest : List (Formula κ)} : Grouped a → Grouped b →
      (∀ f ∈ rest, Grouped f) → Grouped (.chain c a b rest)

theorem regroupAll_eq (fs : List (Formula κ)) : regroupAll fs = fs.map regrouped := by
  induction fs with
  | nil => rw [regroupAll, List.map_nil]
  | cons f fs ih => rw [regroupAll, ih, List.map_cons, regrouped]

/-- A formula that brings its own parentheses holds together. -/
theorem behind_of_not_bare {f : Formula κ} (h : f.isBare = false) (slot : Slot κ) :
    f.behind slot = slot.fill f.regrouped := by
  cases f with
  | compare c a b => cases h
  | nullTest isNull a => cases h
  | between a low high => cases h
  | _ => simp only [regrouped, behind, Slot.fill]

theorem Grouped.regrouped_eq {f : Formula κ} (h : f.Grouped) : f.regrouped = f := by
  induction h with
  | column k => rw [regrouped, behind, Slot.fill]
  | compare c _ _ hbare iha ihb =>
    rw [regrouped, behind, behind_of_not_bare hbare, ihb, Slot.fill, ← regrouped, iha]
  | nullTest isNull _ ih => rw [regrouped, behind, ← regrouped, ih]
  | between _ _ _ hbare iha ihl ihh =>
    rw [regrouped, behind, behind_of_not_bare hbare, ihh, Slot.fill, ← regrouped, ← regrouped, iha,
      ihl]
  | negate _ ih => rw [regrouped, behind, Slot.fill, ← regrouped, ih]
  | arithmetic o _ _ iha ihb =>
    rw [regrouped, behind, Slot.fill, ← regrouped, ← regrouped, iha, ihb]
  | chain c _ _ _ iha ihb ihrest =>
    rw [regrouped, behind, Slot.fill, ← regrouped, ← regrouped, iha, ihb, regroupAll_eq,
      List.map_congr_left ihrest, List.map_id']

/-- An operation that is the last operand of a comparison gives its own first operand away. -/
theorem regrouped_compare (c c' : Comparison) (a b e : Formula κ) :
    (compare c a (compare c' b e)).regrouped = (compare c' (compare c a b) e).regrouped := by
  simp only [regrouped, behind]

/-- What stands before an operand is grouped. -/
inductive Slot.Grouped : Slot κ → Prop where
  | whole : Grouped .whole
  | right (c : Comparison) {a : Formula κ} : a.Grouped → Grouped (.right c a)
  | high {a low : Formula κ} : a.Grouped → low.Grouped → Grouped (.high a low)

theorem Slot.Grouped.fill {slot : Slot κ} {f : Formula κ} (hs : slot.Grouped) (hf : f.Grouped)
    (h : f.isBare = false) : (slot.fill f).Grouped := by
  cases hs with
  | whole => exact hf
  | right c ha => exact .compare c ha hf h
  | high ha hlow => exact .between ha hlow hf h

mutual

theorem grouped_behind : ∀ (f : Formula κ) {slot : Slot κ}, slot.Grouped → (f.behind slot).Grouped
  | column k, slot, hs => by
    rw [behind]
    exact hs.fill (.column k) rfl
  | compare c a b, slot, hs => by
    rw [behind]
    exact grouped_behind b (.right c (grouped_behind a hs))
  | nullTest isNull a, slot, hs => by
    rw [behind]
    exact .nullTest isNull (grouped_behind a hs)
  | between a low high, slot, hs => by
    rw [behind]
    exact grouped_behind high (.high (grouped_behind a hs) (grouped_behind low .whole))
  | negate a, slot, hs => by
    rw [behind]
    exact hs.fill (.negate (grouped_behind a .whole)) rfl
  | arithmetic o a b, slot, hs => by
    rw [behind]
    exact hs.fill (.arithmetic o (grouped_behind a .whole) (grouped_behind b .whole)) rfl
  | chain c a b rest, slot, hs => by
    rw [behind]
    exact hs.fill (.chain c (grouped_behind a .whole) (grouped_behind b .whole)
      (grouped_regroupAll rest)) rfl

theorem grouped_regroupAll : ∀ (fs : List (Formula κ)), ∀ f ∈ regroupAll fs, f.Grouped
  | [], f, hf => by rw [regroupAll] at hf; cases hf
  | g :: fs, f, hf => by
    rw [regroupAll] at hf
    rcases List.mem_cons.1 hf with rfl | hf
    · exact grouped_behind g .whole
    · exact grouped_regroupAll fs f hf

end

/-- Only grouped formulas are read back as they are. -/
theorem regrouped_eq_iff {f : Formula κ} : f.regrouped = f ↔ f.Grouped := by
  refine ⟨fun h => ?_, Grouped.regrouped_eq⟩
  rw [← h]
  exact grouped_behind f .whole

end Formula

end RecordGraph
