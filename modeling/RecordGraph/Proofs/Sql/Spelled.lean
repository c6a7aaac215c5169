import Mathlib.Data.List.Chain
import Mathlib.Data.List.Infix
import RecordGraph.Proofs.Sql.Formula
import RecordGraph.Proofs.Sql.QuotedNames

/-!
# How formulas are spelled

* `Formula.sql_expr`: a formula is written symbol by symbol.
* `Dialect.quoteChars_append_inj`: a quoted name ends where its text says so.
* `Symbol.eq_of_isPrefix`: no symbol begins another one.
* `Formula.text_eq_iff`: so texts of formulas are equal if their symbols are.
-/
namespace RecordGraph

namespace Comparison

def op : Comparison → Op
  | eq => .eq
  | ne => .ne
  | gt => .gt
  | ge => .ge
  | lt => .lt
  | le => .le
  | like => .like

def word : Comparison → String
  | eq => "="
  | ne => "<>"
  | gt => ">"
  | ge => ">="
  | lt => "<"
  | le => "<="
  | like => "LIKE"

end Comparison

namespace Arithmetic

def op : Arithmetic → Op
  | add => .add
  | sub => .sub
  | mul => .mul
  | div => .div
  | mod => .mod

def word : Arithmetic → String
  | add => "+"
  | sub => "-"
  | mul => "*"
  | div => "/"
  | mod => "%"

end Arithmetic

namespace Connective

def op : Connective → Op
  | and => .and
  | or => .or

def word : Connective → String
  | and => "AND"
  | or => "OR"

end Connective

/-- The operator of a null test. -/
def nullTestOp (isNull : Bool) : Op := if isNull then .isNull else .isNotNull

/-- The text of a symbol, in the pieces in which it is written. -/
def Symbol.texts : Symbol → List String
  | compare c => [" " ++ c.word ++ " "]
  | nullTest true => [" IS NULL"]
  | nullTest false => [" IS NOT NULL"]
  | between => [" BETWEEN "]
  | connective c => [" " ++ c.word ++ " "]
  | arithmetic o => [" " ++ o.word ++ " "]
  | not => ["NOT ", "("]
  | opening => ["("]
  | closing => [")"]

/-- What is written for a symbol or a column. -/
def Token.chunks : Token ColumnRef → List Chunk
  | column ref => (Sql.qualified ref.label ref.column).chunks
  | symbol s => s.texts.map .raw

def Token.map {κ μ : Type} (r : κ → μ) : Token κ → Token μ
  | column k => .column (r k)
  | symbol s => .symbol s

namespace Formula

section
variable {κ μ : Type} (r : κ → μ)

mutual

def map : Formula κ → Formula μ
  | column k => .column (r k)
  | compare c a b => .compare c a.map b.map
  | nullTest isNull a => .nullTest isNull a.map
  | between a low high => .between a.map low.map high.map
  | negate a => .negate a.map
  | arithmetic o a b => .arithmetic o a.map b.map
  | chain c a b rest => .chain c a.map b.map (mapAll rest)

def mapAll : List (Formula κ) → List (Formula μ)
  | [] => []
  | f :: rest => f.map :: mapAll rest

end

end

mutual

/-- A formula over the columns of joined tables, as an expression. -/
def expr : Formula ColumnRef → Expr
  | column ref => .column ref
  | compare c a b => .apply c.op [a.expr, b.expr]
  | nullTest isNull a => .apply (nullTestOp isNull) [a.expr]
  | between a low high => .apply .between [a.expr, low.expr, high.expr]
  | negate a => .apply .not [a.expr]
  | arithmetic o a b => .apply o.op [a.expr, b.expr]
  | chain c a b rest => .apply c.op (a.expr :: b.expr :: exprs rest)

def exprs : List (Formula ColumnRef) → List Expr
  | [] => []
  | f :: rest => f.expr :: exprs rest

end

mutual

theorem tokens_map {κ μ : Type} (r : κ → μ) : ∀ f : Formula κ,
    (f.map r).tokens = f.tokens.map (Token.map r)
  | column k => by simp [map, tokens, Token.map]
  | compare c a b => by simp [map, tokens, tokens_map r a, tokens_map r b, Token.map]
  | nullTest isNull a => by simp [map, tokens, tokens_map r a, Token.map]
  | between a low high => by
    simp [map, tokens, tokens_map r a, tokens_map r low, tokens_map r high, Token.map]
  | negate a => by simp [map, tokens, tokens_map r a, Token.map]
  | arithmetic o a b => by simp [map, tokens, tokens_map r a, tokens_map r b, Token.map]
  | chain c a b rest => by
    simp [map, tokens, tokens_map r a, tokens_map r b, tokensAll_map r c rest, Token.map]

theorem tokensAll_map {κ μ : Type} (r : κ → μ) (c : Connective) : ∀ fs : List (Formula κ),
    tokensAll c (mapAll r fs) = (tokensAll c fs).map (Token.map r)
  | [] => by simp [mapAll, tokensAll]
  | f :: rest => by simp [mapAll, tokensAll, tokens_map r f, tokensAll_map r c rest, Token.map]

end

/-! ## Chunks -/

/-- The chunks of symbols and columns. -/
def chunks (tokens : List (Token ColumnRef)) : List Chunk := tokens.flatMap Token.chunks

theorem chunks_append (as bs : List (Token ColumnRef)) :
    chunks (as ++ bs) = chunks as ++ chunks bs := List.flatMap_append

theorem chunks_symbol (s : Symbol) (as : List (Token ColumnRef)) :
    chunks (.symbol s :: as) = s.texts.map .raw ++ chunks as := rfl

theorem chunks_nil : chunks [] = [] := rfl

theorem sql_append_chunks (x y : Sql) : (x ++ y).chunks = x.chunks ++ y.chunks := rfl

theorem pushRaw_chunks (x : Sql) (text : String) :
    (x.pushRaw text).chunks = x.chunks ++ [.raw text] := rfl

theorem raw_chunks (text : String) : (Sql.raw text).chunks = [.raw text] := rfl

theorem parens_chunks (x : Sql) : x.parens.chunks = .raw "(" :: (x.chunks ++ [.raw ")"]) := rfl

theorem infixed_chunks (operator : String) (x y : Sql) : (Op.infixed operator x y).chunks =
    x.chunks ++ .raw (" " ++ operator ++ " ") :: y.chunks := by
  rw [Op.infixed, sql_append_chunks, pushRaw_chunks, List.append_assoc, List.singleton_append]

theorem join_chunks (separator : String) : ∀ (x : Sql) (rest : List Sql),
    (Sql.join separator (x :: rest)).chunks =
      x.chunks ++ rest.flatMap fun y => .raw separator :: y.chunks
  | x, [] => by rw [Sql.join, List.flatMap_nil, List.append_nil]
  | x, y :: rest => by
    rw [Sql.join, sql_append_chunks, sql_append_chunks, raw_chunks, join_chunks separator y rest,
      List.flatMap_cons]
    · simp
    · simp

theorem compare_chunks (d : Dialect) (c : Comparison) (rows : Bool) (x y : Sql) :
    (Expr.applied d c.op rows [x, y]).chunks =
      x.chunks ++ .raw (" " ++ c.word ++ " ") :: y.chunks := by
  rw [← infixed_chunks]
  cases c <;> cases d <;> rfl

theorem arithmetic_chunks (d : Dialect) (o : Arithmetic) (rows : Bool) (x y : Sql) :
    (Expr.applied d o.op rows [x, y]).chunks =
      .raw "(" :: ((x.chunks ++ .raw (" " ++ o.word ++ " ") :: y.chunks) ++ [.raw ")"]) := by
  rw [← infixed_chunks, ← parens_chunks]
  cases o <;> cases d <;> rfl

theorem between_chunks (d : Dialect) (rows : Bool) (x y z : Sql) :
    (Expr.applied d .between rows [x, y, z]).chunks =
      x.chunks ++ .raw " BETWEEN " :: (y.chunks ++ .raw " AND " :: z.chunks) := by
  have hstandard : (Expr.applied d .between rows [x, y, z]).chunks =
      ((x.chunks ++ [.raw " BETWEEN "]) ++ y.chunks ++ [.raw " AND "]) ++ z.chunks := by
    cases d <;> rfl
  rw [hstandard]
  simp

theorem chain_chunks (d : Dialect) (c : Connective) (rows : Bool) (x y : Sql) (rest : List Sql) :
    (Expr.applied d c.op rows (x :: y :: rest)).chunks =
      .raw "(" :: ((x.chunks ++ (y :: rest).flatMap fun z =>
        .raw (" " ++ c.word ++ " ") :: z.chunks) ++ [.raw ")"]) := by
  rw [← join_chunks, ← parens_chunks]
  cases c <;> cases d <;> rfl

mutual

/-- A formula is written symbol by symbol. -/
theorem sql_expr (d : Dialect) : ∀ f : Formula ColumnRef, (f.expr.sql d).chunks = chunks f.tokens
  | column ref => by
    rw [expr, Expr.sql, tokens]
    rfl
  | compare c a b => by
    rw [expr, Expr.sql, Expr.sqls, Expr.sqls, Expr.sqls, compare_chunks, sql_expr d a,
      sql_expr d b, tokens, chunks_append, chunks_symbol]
    rfl
  | nullTest isNull a => by
    rw [expr, Expr.sql, Expr.sqls, Expr.sqls, tokens, chunks_append, chunks_symbol, ← sql_expr d a]
    cases isNull <;> cases d <;> rfl
  | between a low high => by
    rw [expr, Expr.sql, Expr.sqls, Expr.sqls, Expr.sqls, Expr.sqls, between_chunks, tokens,
      chunks_append, chunks_symbol, chunks_append, chunks_symbol, sql_expr d a, sql_expr d low,
      sql_expr d high]
    rfl
  | negate a => by
    rw [expr, Expr.sql, Expr.sqls, Expr.sqls, tokens, chunks_symbol, chunks_append, chunks_symbol,
      ← sql_expr d a]
    cases d <;> rfl
  | arithmetic o a b => by
    rw [expr, Expr.sql, Expr.sqls, Expr.sqls, Expr.sqls, arithmetic_chunks, sql_expr d a,
      sql_expr d b, tokens, chunks_symbol, chunks_append, chunks_symbol, chunks_append,
      chunks_symbol]
    simp [Symbol.texts, chunks_nil]
  | chain c a b rest => by
    rw [expr, Expr.sql, Expr.sqls, Expr.sqls, chain_chunks, List.flatMap_cons, sqls_exprs d c rest,
      sql_expr d a, sql_expr d b, tokens, chunks_symbol, chunks_append, chunks_symbol,
      chunks_append, chunks_append, chunks_symbol]
    simp [Symbol.texts, chunks_nil]

theorem sqls_exprs (d : Dialect) (c : Connective) : ∀ fs : List (Formula ColumnRef),
    ((Expr.sqls d (exprs fs)).flatMap fun z => .raw (" " ++ c.word ++ " ") :: z.chunks) =
      chunks (tokensAll c fs)
  | [] => by rw [exprs, Expr.sqls, tokensAll]; rfl
  | f :: rest => by
    rw [exprs, Expr.sqls, tokensAll, List.flatMap_cons, sqls_exprs d c rest, sql_expr d f,
      chunks_symbol, chunks_append]
    rfl

end

end Formula

/-! ## Quoted names -/

/-- Whoever reads a quoted name finds its end. -/
theorem Dialect.doubled_append_inj {q : Char} {name name' u u' : List Char}
    (hu : u.head? ≠ some q) (hu' : u'.head? ≠ some q)
    (h : Dialect.doubled q name ++ q :: u = Dialect.doubled q name' ++ q :: u') :
    name = name' ∧ u = u' := by
  have hread : unquote? q (doubled q name ++ q :: u) = some (name, u) :=
    unquote?_eq_some_iff.2 ⟨rfl, hu⟩
  rw [h, unquote?_eq_some_iff.2 ⟨rfl, hu'⟩] at hread
  cases hread
  exact ⟨rfl, rfl⟩

/-- A quoted name ends where a quote stands alone. -/
theorem Dialect.quoteChars_append_inj {d : Dialect} {name name' u u' : List Char}
    (hu : u.head? ≠ some d.quoteChar) (hu' : u'.head? ≠ some d.quoteChar)
    (h : d.quoteChars name ++ u = d.quoteChars name' ++ u') : name = name' ∧ u = u' := by
  simp only [quoteChars, List.cons_append, List.append_assoc, List.cons.injEq, true_and,
    List.nil_append] at h
  exact doubled_append_inj hu hu' h

/-! ## Texts -/

/-- The characters of a chunk that is no argument. -/
def Chunk.chars (d : Dialect) : Chunk → List Char
  | raw text => text.toList
  | ident name => d.quoteChars name.toList
  | param _ => []

theorem Sql.toList_textFrom (d : Dialect) (i : Nat) : ∀ {cs : List Chunk},
    (∀ c ∈ cs, ∀ v, c ≠ .param v) → (Sql.textFrom d i cs).toList = cs.flatMap (Chunk.chars d)
  | [], _ => rfl
  | .raw text :: rest, h => by
    rw [textFrom, String.toList_append, toList_textFrom d i (List.forall_mem_cons.1 h).2,
      List.flatMap_cons]
    rfl
  | .ident name :: rest, h => by
    rw [textFrom, String.toList_append, toList_textFrom d i (List.forall_mem_cons.1 h).2,
      List.flatMap_cons, Dialect.quote, String.toList_ofList]
    rfl
  | .param v :: rest, h => absurd rfl (h _ List.mem_cons_self v)

namespace Symbol

def chars (s : Symbol) : List Char := s.texts.flatMap String.toList

/-- All symbols. -/
def all : List Symbol :=
  [.compare .eq, .compare .ne, .compare .gt, .compare .ge, .compare .lt, .compare .le,
    .compare .like, .nullTest true, .nullTest false, .between, .connective .and, .connective .or,
    .arithmetic .add, .arithmetic .sub, .arithmetic .mul, .arithmetic .div, .arithmetic .mod, .not,
    .opening, .closing]

theorem mem_all (s : Symbol) : s ∈ all := by
  cases s with
  | compare c => cases c <;> decide
  | nullTest isNull => cases isNull <;> decide
  | connective c => cases c <;> decide
  | arithmetic o => cases o <;> decide
  | _ => decide

/-- No symbol begins another one. -/
theorem eq_of_isPrefix {a b : Symbol} (h : a.chars <+: b.chars) : a = b := by
  have hall : ∀ a ∈ all, ∀ b ∈ all, a.chars.isPrefixOf b.chars = true → a = b := by
    decide +kernel
  exact hall a (mem_all a) b (mem_all b) (List.isPrefixOf_iff_prefix.2 h)

theorem chars_append_inj {a b : Symbol} {u u' : List Char} (h : a.chars ++ u = b.chars ++ u') :
    a = b ∧ u = u' := by
  have hab : a = b := by
    rcases List.prefix_or_prefix_of_prefix (List.prefix_append a.chars u)
      (h ▸ List.prefix_append b.chars u') with h | h
    · exact eq_of_isPrefix h
    · exact (eq_of_isPrefix h).symm
  subst hab
  exact ⟨rfl, List.append_cancel_left h⟩

/-- No symbol begins with a quote. -/
theorem head?_chars (s : Symbol) (d : Dialect) :
    ∃ c rest, s.chars = c :: rest ∧ c ≠ d.quoteChar := by
  have hall : ∀ s ∈ all, (s.chars.head?.any [' ', 'N', '(', ')'].contains) = true := by
    decide +kernel
  obtain ⟨c, hs, hc⟩ := (Option.any_eq_true _ _).1 (hall s (mem_all s))
  obtain ⟨rest, hrest⟩ := List.head?_eq_some_iff.1 hs
  refine ⟨c, rest, hrest, ?_⟩
  rintro rfl
  cases d <;> exact absurd hc (by decide)

end Symbol

namespace Token

/-- The characters of a symbol or a column. -/
def chars (d : Dialect) (t : Token ColumnRef) : List Char := t.chunks.flatMap (Chunk.chars d)

theorem chars_symbol (d : Dialect) (s : Symbol) : (symbol s).chars d = s.chars := by
  rw [chars, chunks, List.flatMap_map]
  rfl

theorem chars_column (d : Dialect) (ref : ColumnRef) : (column ref).chars d =
    d.quoteChars ref.label.toList ++ '.' :: d.quoteChars ref.column.toList := by
  simp [chars, chunks, Sql.qualified, Sql.ident, Sql.pushRaw, Sql.pushIdent, Sql.push, Chunk.chars]

/-- Between two columns there is a symbol. -/
def MayPrecede {κ : Type} : Token κ → Token κ → Prop
  | column _, column _ => False
  | _, _ => True

theorem mayPrecede_symbol {κ : Type} (t : Token κ) (s : Symbol) : t.MayPrecede (symbol s) := by
  cases t <;> trivial

/-- What comes behind a column does not begin with a quote. -/
theorem head?_ne_of_column {d : Dialect} {ref : ColumnRef} {as : List (Token ColumnRef)}
    (h : (column ref :: as).IsChain MayPrecede) :
    (as.flatMap (chars d)).head? ≠ some d.quoteChar := by
  match as, h with
  | [], _ => simp
  | column ref' :: _, h => exact (List.isChain_cons_cons.1 h).1.elim
  | symbol s :: as, _ =>
    obtain ⟨c, rest, hs, hc⟩ := s.head?_chars d
    rw [List.flatMap_cons, chars_symbol, hs]
    exact fun h => hc (Option.some.inj h)

theorem chars_column_ne_symbol {d : Dialect} {ref : ColumnRef} {s : Symbol} {u u' : List Char} :
    (column ref).chars d ++ u ≠ (symbol s).chars d ++ u' := by
  obtain ⟨c, rest, hs, hc⟩ := s.head?_chars d
  rw [chars_column, chars_symbol, hs, Dialect.quoteChars]
  exact fun h => hc (List.cons.inj h).1.symm

theorem chars_column_append_inj {d : Dialect} {ref ref' : ColumnRef} {u u' : List Char}
    (hu : u.head? ≠ some d.quoteChar) (hu' : u'.head? ≠ some d.quoteChar)
    (h : (column ref).chars d ++ u = (column ref').chars d ++ u') : ref = ref' ∧ u = u' := by
  have hdot : ('.' : Char) ≠ d.quoteChar := by cases d <;> decide
  have hhead (v : List Char) : ('.' :: v).head? ≠ some d.quoteChar :=
    fun h => hdot (Option.some.inj h)
  simp only [chars_column, List.append_assoc, List.cons_append] at h
  obtain ⟨hlabel, h⟩ := Dialect.quoteChars_append_inj (hhead _) (hhead _) h
  obtain ⟨hcolumn, h⟩ := Dialect.quoteChars_append_inj hu hu' (List.cons.inj h).2
  refine ⟨?_, h⟩
  cases ref
  cases ref'
  rw [ColumnRef.mk.injEq]
  exact ⟨String.toList_injective hlabel, String.toList_injective hcolumn⟩

/-- **Spelling.** The text of symbols and columns is read in one way only. -/
theorem chars_inj {d : Dialect} : ∀ {as bs : List (Token ColumnRef)}, as.IsChain MayPrecede →
    bs.IsChain MayPrecede → as.flatMap (chars d) = bs.flatMap (chars d) → as = bs
  | [], [], _, _, _ => rfl
  | [], symbol s :: bs, _, _, h => by
    obtain ⟨c, rest, hs, -⟩ := s.head?_chars d
    rw [List.flatMap_cons, chars_symbol, hs] at h
    cases h
  | [], column ref :: bs, _, _, h => by
    rw [List.flatMap_cons, chars_column] at h
    cases h
  | symbol s :: as, [], _, _, h => by
    obtain ⟨c, rest, hs, -⟩ := s.head?_chars d
    rw [List.flatMap_cons, chars_symbol, hs] at h
    cases h
  | column ref :: as, [], _, _, h => by
    rw [List.flatMap_cons, chars_column] at h
    cases h
  | symbol s :: as, symbol s' :: bs, has, hbs, h => by
    rw [List.flatMap_cons, List.flatMap_cons, chars_symbol, chars_symbol] at h
    obtain ⟨hs, hchars⟩ := Symbol.chars_append_inj h
    have hrest : as = bs := chars_inj has.tail hbs.tail hchars
    rw [hs, hrest]
  | symbol s :: as, column ref :: bs, _, _, h => absurd h.symm chars_column_ne_symbol
  | column ref :: as, symbol s :: bs, _, _, h => absurd h chars_column_ne_symbol
  | column ref :: as, column ref' :: bs, has, hbs, h => by
    obtain ⟨href, hchars⟩ :=
      chars_column_append_inj (head?_ne_of_column has) (head?_ne_of_column hbs) h
    have hrest : as = bs := chars_inj has.tail hbs.tail hchars
    rw [href, hrest]

theorem isChain_symbol {κ : Type} {as bs : List (Token κ)} {s : Symbol}
    (has : as.IsChain MayPrecede) (hbs : bs.IsChain MayPrecede) :
    (as ++ symbol s :: bs).IsChain MayPrecede := by
  refine List.isChain_append.2 ⟨has, List.isChain_cons.2 ⟨fun _ _ => trivial, hbs⟩, ?_⟩
  rintro t - _ ⟨⟩
  exact mayPrecede_symbol t s

end Token

/-- The text of an expression, as a fragment of a statement. -/
def Expr.text (d : Dialect) (e : Expr) : String := ((e.sql d).render d).sql

namespace Formula

mutual

theorem isChain_tokens {κ : Type} : ∀ f : Formula κ, f.tokens.IsChain Token.MayPrecede
  | column k => by rw [tokens]; exact .singleton _
  | compare c a b => by
    rw [tokens]
    exact Token.isChain_symbol (isChain_tokens a) (isChain_tokens b)
  | nullTest isNull a => by
    rw [tokens]
    exact Token.isChain_symbol (isChain_tokens a) .nil
  | between a low high => by
    rw [tokens]
    exact Token.isChain_symbol (isChain_tokens a)
      (Token.isChain_symbol (isChain_tokens low) (isChain_tokens high))
  | negate a => by
    rw [tokens]
    exact Token.isChain_symbol .nil (Token.isChain_symbol (isChain_tokens a) .nil)
  | arithmetic o a b => by
    rw [tokens]
    exact Token.isChain_symbol .nil (Token.isChain_symbol (isChain_tokens a)
      (Token.isChain_symbol (isChain_tokens b) .nil))
  | chain c a b rest => by
    rw [tokens, ← List.append_assoc b.tokens]
    exact Token.isChain_symbol .nil (Token.isChain_symbol (isChain_tokens a)
      (Token.isChain_symbol (isChain_tokensAll c rest (isChain_tokens b)) .nil))

theorem isChain_tokensAll {κ : Type} (c : Connective) : ∀ (fs : List (Formula κ))
    {as : List (Token κ)}, as.IsChain Token.MayPrecede →
      (as ++ tokensAll c fs).IsChain Token.MayPrecede
  | [], as, has => by
    rw [tokensAll, List.append_nil]
    exact has
  | f :: rest, as, has => by
    rw [tokensAll]
    exact Token.isChain_symbol has (isChain_tokensAll c rest (isChain_tokens f))

end

theorem toList_text (d : Dialect) (f : Formula ColumnRef) :
    (f.expr.text d).toList = f.tokens.flatMap (Token.chars d) := by
  have hparam : ∀ c ∈ (f.expr.sql d).chunks, ∀ v, c ≠ .param v := by
    rw [sql_expr]
    intro c hc v
    obtain ⟨t, -, hc⟩ := List.mem_flatMap.1 hc
    cases t with
    | column ref =>
      rintro rfl
      simp [Token.chunks, Sql.qualified, Sql.ident, Sql.pushRaw, Sql.pushIdent, Sql.push] at hc
    | symbol s =>
      obtain ⟨_, -, rfl⟩ := List.mem_map.1 hc
      exact nofun
  rw [Expr.text, Sql.render, Sql.toList_textFrom d 1 hparam, sql_expr, chunks, List.flatMap_assoc]
  rfl

/-- **Texts.** Two formulas have the same text if they are regrouped to one. -/
theorem text_eq_iff {d : Dialect} {f g : Formula ColumnRef} :
    f.expr.text d = g.expr.text d ↔ f.regrouped = g.regrouped := by
  rw [← tokens_eq_iff]
  constructor
  · intro h
    refine Token.chars_inj (isChain_tokens f) (isChain_tokens g) (d := d) ?_
    rw [← toList_text, ← toList_text, h]
  · intro h
    refine String.toList_injective ?_
    rw [toList_text, toList_text, h]

theorem map_inj_of_mem {α β : Type} {h : α → β} : ∀ {as bs : List α},
    (∀ a ∈ as, ∀ b ∈ bs, h a = h b → a = b) → as.map h = bs.map h → as = bs
  | [], [], _, _ => rfl
  | a :: as, b :: bs, hinj, hmap => by
    obtain ⟨hab, hrest⟩ := List.cons.inj hmap
    rw [hinj a List.mem_cons_self b List.mem_cons_self hab, map_inj_of_mem (fun x hx y hy =>
      hinj x (List.mem_cons_of_mem _ hx) y (List.mem_cons_of_mem _ hy)) hrest]

/-- A column stands in a formula. -/
def Has {κ : Type} (f : Formula κ) (k : κ) : Prop := Token.column k ∈ f.tokens

section
variable {κ : Type} {k k' : κ} {c : Connective} {a b e : Formula κ} {rest : List (Formula κ)}

theorem has_column : (column k).Has k' ↔ k' = k := by simp [Has, tokens]

theorem has_compare {c : Comparison} : (compare c a b).Has k ↔ a.Has k ∨ b.Has k := by
  simp [Has, tokens]

theorem has_nullTest {isNull : Bool} : (nullTest isNull a).Has k ↔ a.Has k := by simp [Has, tokens]

theorem has_between : (between a b e).Has k ↔ a.Has k ∨ b.Has k ∨ e.Has k := by simp [Has, tokens]

theorem has_negate : (negate a).Has k ↔ a.Has k := by simp [Has, tokens]

theorem has_arithmetic {o : Arithmetic} : (arithmetic o a b).Has k ↔ a.Has k ∨ b.Has k := by
  simp [Has, tokens]

theorem mem_tokensAll : Token.column k ∈ tokensAll c rest ↔ ∃ f ∈ rest, f.Has k := by
  induction rest with
  | nil => simp [tokensAll]
  | cons f rest ih => simp [tokensAll, ih, Has]

theorem has_chain : (chain c a b rest).Has k ↔ a.Has k ∨ b.Has k ∨ ∃ f ∈ rest, f.Has k := by
  simp [Has, tokens, mem_tokensAll]

end

/-- Where different columns of the two are different columns of tables, nothing else is confused. -/
theorem text_map_eq_iff {κ : Type} {r : κ → ColumnRef} {d : Dialect} {f g : Formula κ}
    (hr : ∀ k k', f.Has k → g.Has k' → r k = r k' → k = k') :
    (f.map r).expr.text d = (g.map r).expr.text d ↔ f.regrouped = g.regrouped := by
  rw [text_eq_iff, ← tokens_eq_iff, ← tokens_eq_iff, tokens_map, tokens_map]
  refine ⟨map_inj_of_mem fun t ht t' ht' heq => ?_, congrArg _⟩
  cases t with
  | column k =>
    cases t' with
    | column k' => rw [hr k k' ht ht' (Token.column.inj heq)]
    | symbol s => cases heq
  | symbol s =>
    cases t' with
    | column k => cases heq
    | symbol s' => rw [Token.symbol.inj heq]

end Formula

end RecordGraph
