import Mathlib.Data.List.Basic
import RecordGraph.Sql.Select

/-!
# Operators write their operands

What stands in a text is said by `Sql.InOrder`: fragments one after the other, none inside another
one, with any text between them.

**Results.**
* `Sql.InOrder.standard`, `Sql.InOrder.operator`: an operator with as many operands as it takes
  writes them all, in order. The subject of an empty list is left out, and whatever operands
  SQLite's current time is given.
* `Expr.inOrder_apply`: so does an operator over expressions, of which the last may be a selection.
* `Dialect.takes_iff`: the operand counts that a dialect lets pass.
-/
namespace RecordGraph

/-- Fragments that stand in a text one after the other. -/
inductive Sql.InOrder : List Sql → Sql → Prop where
  | nil (text : Sql) : InOrder [] text
  | cons (before piece : Sql) {pieces : List Sql} {text : Sql} : InOrder pieces text →
      InOrder (piece :: pieces) (before ++ piece ++ text)

namespace Sql

theorem append_assoc (a b c : Sql) : a ++ b ++ c = a ++ (b ++ c) :=
  congrArg Sql.mk (List.append_assoc a.chunks b.chunks c.chunks)

theorem empty_append (a : Sql) : empty ++ a = a := rfl

theorem append_empty (a : Sql) : a ++ empty = a := congrArg Sql.mk (List.append_nil a.chunks)

namespace InOrder

variable {a b c : Sql} {as bs : List Sql}

theorem self (a : Sql) : InOrder [a] a := by
  have h := cons empty a (nil empty)
  rwa [empty_append, append_empty] at h

theorem before (h : InOrder as a) (text : Sql) : InOrder as (text ++ a) := by
  cases h with
  | nil => exact nil _
  | cons gap piece h =>
    rw [← append_assoc, ← append_assoc]
    exact cons _ _ h

theorem append (ha : InOrder as a) (hb : InOrder bs b) : InOrder (as ++ bs) (a ++ b) := by
  induction ha with
  | nil text => exact hb.before text
  | cons gap piece _ ih =>
    rw [append_assoc]
    exact cons _ _ ih

theorem after (h : InOrder as a) (text : Sql) : InOrder as (a ++ text) := by
  have h := h.append (nil text)
  rwa [List.append_nil] at h

theorem pushRaw (h : InOrder as a) (text : String) : InOrder as (a.pushRaw text) :=
  h.after (raw text)

theorem parens (h : InOrder as a) : InOrder as a.parens := (h.before _).after _

theorem join (separator : String) : ∀ as : List Sql, InOrder as (Sql.join separator as)
  | [] => nil _
  | [a] => self a
  | a :: b :: as => ((self a).after (raw separator)).append (join separator (b :: as))

theorem func (name : String) (as : List Sql) : InOrder as (Sql.func name as) :=
  ((join _ as).before _).after _

theorem infixed (operator : String) (a b : Sql) : InOrder [a, b] (Op.infixed operator a b) :=
  ((self a).pushRaw _).append (self b)

theorem chained (operator : String) : ∀ as : List Sql, InOrder as (Op.chained operator as)
  | [a] => self a
  | [] => nil _
  | a :: b :: as => (join _ (a :: b :: as)).parens

/-- The subject is written before a list that is not empty. -/
theorem membership (keyword whenEmpty : String) : ∀ {as : List Sql}, as.length ≠ 1 →
    InOrder as (Op.membership keyword whenEmpty as)
  | [], _ => nil _
  | [_], h => absurd rfl h
  | a :: b :: as, _ => ((self a).pushRaw keyword).append (join _ (b :: as)).parens

end InOrder

end Sql

open Sql (InOrder)

/-- An operator that takes one count takes no other. -/
theorem Op.eq_of_takes {op : Op} {n count : Nat} (harity : op.arity = (n, some n))
    (h : op.takes count = true) : count = n := by
  rw [takes, harity, Bool.and_eq_true, decide_eq_true_eq, decide_eq_true_eq] at h
  exact Nat.le_antisymm h.2 h.1

/-- What an operator leaves out, though it takes it: the subject of an empty list. -/
def Op.DropsSubject (op : Op) (count : Nat) : Prop := (op = .isIn ∨ op = .notIn) ∧ count = 1

/-- An operator writes the operands that it takes. -/
theorem Sql.InOrder.standard (escape : String) {op : Op} {args : List Sql}
    (htakes : op.takes args.length = true) (hdrops : ¬op.DropsSubject args.length) :
    InOrder args (op.standard escape args) := by
  have hnone (harity : op.arity = (0, some 0)) : args = [] :=
    List.eq_nil_of_length_eq_zero (Op.eq_of_takes harity htakes)
  have hone (harity : op.arity = (1, some 1)) : ∃ a, args = [a] :=
    List.length_eq_one_iff.1 (Op.eq_of_takes harity htakes)
  have htwo (harity : op.arity = (2, some 2)) : ∃ a b, args = [a, b] :=
    List.length_eq_two.1 (Op.eq_of_takes harity htakes)
  cases op with
  | eq | ne | gt | ge | lt | le | like =>
    obtain ⟨a, b, rfl⟩ := htwo rfl
    exact .infixed _ a b
  | startsWith | endsWith | contains =>
    obtain ⟨a, b, rfl⟩ := htwo rfl
    exact (InOrder.infixed _ a b).pushRaw _
  | isIn => exact .membership _ _ fun hlen => hdrops ⟨.inl rfl, hlen⟩
  | notIn => exact .membership _ _ fun hlen => hdrops ⟨.inr rfl, hlen⟩
  | isNull | isNotNull =>
    obtain ⟨a, rfl⟩ := hone rfl
    exact (InOrder.self a).pushRaw _
  | between =>
    obtain ⟨a, b, c, rfl⟩ := List.length_eq_three.1 (Op.eq_of_takes rfl htakes)
    exact ((((InOrder.self a).pushRaw _).append (.self b)).pushRaw _).append (.self c)
  | and | or =>
    cases args with
    | nil => exact .nil _
    | cons a as => exact .chained _ (a :: as)
  | xor | add | sub | mul | div | mod =>
    obtain ⟨a, b, rfl⟩ := htwo rfl
    exact (InOrder.infixed _ a b).parens
  | not =>
    obtain ⟨a, rfl⟩ := hone rfl
    exact (InOrder.self a).parens.before _
  | neg | countDistinct =>
    obtain ⟨a, rfl⟩ := hone rfl
    exact ((InOrder.self a).before _).after _
  | concat => exact .chained _ args
  | lower | upper | count | sum | min | max | avg | coalesce => exact .func _ args
  | countAll | now =>
    rw [hnone rfl]
    exact .nil _
  | dateAddSeconds =>
    obtain ⟨a, b, rfl⟩ := htwo rfl
    exact (((((InOrder.self a).pushRaw _).append (InOrder.self b).parens).pushRaw _)).parens

/-- The one operator that a dialect writes whatever its operands are. -/
def Dialect.IgnoresOperands (d : Dialect) (op : Op) : Prop := d = .sqlite ∧ op = .now

theorem Dialect.takes_iff {d : Dialect} {op : Op} {count : Nat} :
    d.takes op count = true ↔ op.takes count = true ∨ d.IgnoresOperands op := by
  rw [takes, Bool.or_eq_true, Bool.and_eq_true, beq_iff_eq, beq_iff_eq, or_comm]
  exact Iff.rfl

/-- Every dialect writes the operands that an operator takes. -/
theorem Sql.InOrder.operator (d : Dialect) {op : Op} {args : List Sql}
    (htakes : op.takes args.length = true) (hdrops : ¬op.DropsSubject args.length) :
    InOrder args (d.operator op args) := by
  unfold Dialect.operator
  split
  · obtain ⟨a, b, rfl⟩ := List.length_eq_two.1 (Op.eq_of_takes rfl htakes)
    exact ((((InOrder.self a).before _).pushRaw _).append (InOrder.self b).parens).pushRaw _
  · rw [List.eq_nil_of_length_eq_zero (Op.eq_of_takes rfl htakes)]
    exact .nil _
  · obtain ⟨a, b, rfl⟩ := List.length_eq_two.1 (Op.eq_of_takes rfl htakes)
    exact ((((InOrder.self a).pushRaw _).append (.self b)).pushRaw _).parens
  · exact .func _ args
  · exact (InOrder.join _ args).parens
  · obtain ⟨a, b, rfl⟩ := List.length_eq_two.1 (Op.eq_of_takes rfl htakes)
    exact ((((InOrder.self a).before _).pushRaw _).append (.self b)).pushRaw _
  · exact .standard _ htakes hdrops

namespace Expr

theorem sqls_eq (d : Dialect) (es : List Expr) : sqls d es = es.map (sql d) := by
  induction es with
  | nil => rw [sqls, List.map_nil]
  | cons e es ih => rw [sqls, ih, List.map_cons]

/-- Expressions under an operator that takes so many stand in its text. -/
theorem inOrder_apply (d : Dialect) {op : Op} {es : List Expr} (htakes : op.takes es.length = true)
    (hdrops : ¬op.DropsSubject es.length) : InOrder (es.map (sql d)) ((apply op es).sql d) := by
  rw [sql, sqls_eq]
  have hplain : InOrder (es.map (sql d)) (d.operator op (es.map (sql d))) :=
    .operator d (by rwa [List.length_map]) (by rwa [List.length_map])
  unfold applied
  split
  · rename_i subject selection _ _ hlist
    rw [hlist]
    exact ((InOrder.self subject).pushRaw _).append (.self selection)
  · exact hplain

end Expr

end RecordGraph
