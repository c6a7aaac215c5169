import Mathlib.Data.List.Forall2
import RecordGraph.Sql.Command

/-!
# Statements that differ in their arguments only

Two fragments are `Alike` when they have the same text and the same identifiers at the same places,
and arguments that are related where they have arguments.

**Results.**
* `Sql.Alike.append`, `Sql.Alike.join`, `Sql.Alike.operator`: fragments made of alike parts in the
  same way are alike.
* `SelectOf.Alike.mk`: so are selections of alike expressions.
* `Sql.Alike.render_sql`: alike fragments have the same text in every dialect.
* `Sql.Alike.render_args`: their arguments are related one by one.
-/
namespace RecordGraph

variable {W : Value → Value → Prop} {d : Dialect}

/-- The same text, the same identifier, or related arguments. -/
inductive Chunk.Alike (W : Value → Value → Prop) : Chunk → Chunk → Prop where
  | raw (text : String) : Alike W (.raw text) (.raw text)
  | ident (name : String) : Alike W (.ident name) (.ident name)
  | param {v v' : Value} : W v v' → Alike W (.param v) (.param v')

/-- Fragments that are alike chunk by chunk. -/
structure Sql.Alike (W : Value → Value → Prop) (s s' : Sql) : Prop where
  chunks : List.Forall₂ (Chunk.Alike W) s.chunks s'.chunks

namespace Sql.Alike

variable {a a' b b' : Sql} {as as' : List Sql}

theorem empty : Alike W Sql.empty Sql.empty := ⟨.nil⟩

theorem raw (text : String) : Alike W (Sql.raw text) (Sql.raw text) := ⟨.cons (.raw text) .nil⟩

theorem ident (name : String) : Alike W (Sql.ident name) (Sql.ident name) :=
  ⟨.cons (.ident name) .nil⟩

theorem param {v v' : Value} (h : W v v') : Alike W (Sql.param v) (Sql.param v') :=
  ⟨.cons (.param h) .nil⟩

theorem append (ha : Alike W a a') (hb : Alike W b b') : Alike W (a ++ b) (a' ++ b') :=
  ⟨List.rel_append ha.chunks hb.chunks⟩

theorem pushRaw (ha : Alike W a a') (text : String) : Alike W (a.pushRaw text) (a'.pushRaw text) :=
  append ha (raw text)

theorem pushIdent (ha : Alike W a a') (name : String) :
    Alike W (a.pushIdent name) (a'.pushIdent name) :=
  append ha (ident name)

theorem parens (ha : Alike W a a') : Alike W a.parens a'.parens :=
  append (append (raw _) ha) (raw _)

theorem named (ha : Alike W a a') (name : String) : Alike W (a.named name) (a'.named name) :=
  (ha.pushRaw _).pushIdent name

theorem qualified (label column : String) :
    Alike W (Sql.qualified label column) (Sql.qualified label column) :=
  ((ident label).pushRaw _).pushIdent column

theorem join (separator : String) : ∀ {as as' : List Sql}, List.Forall₂ (Alike W) as as' →
    Alike W (Sql.join separator as) (Sql.join separator as')
  | [], [], _ => empty
  | [_], [_], .cons h _ => h
  | _ :: _ :: _, _ :: _ :: _, .cons h hrest => append (append h (raw _)) (join separator hrest)

theorem func (name : String) (h : List.Forall₂ (Alike W) as as') :
    Alike W (Sql.func name as) (Sql.func name as') :=
  append (append (append (raw _) (raw _)) (join _ h)) (raw _)

/-- Nothing stands for an operand that is not there. -/
theorem getD (h : List.Forall₂ (Alike W) as as') : ∀ i : Nat,
    Alike W (as.getD i Sql.empty) (as'.getD i Sql.empty) := by
  induction h with
  | nil => exact fun _ => empty
  | cons h _ ih =>
    intro i
    cases i with
    | zero => exact h
    | succ i => exact ih i

theorem infixed (operator : String) (ha : Alike W a a') (hb : Alike W b b') :
    Alike W (Op.infixed operator a b) (Op.infixed operator a' b') :=
  (ha.pushRaw _).append hb

theorem chained (operator : String) (h : List.Forall₂ (Alike W) as as') :
    Alike W (Op.chained operator as) (Op.chained operator as') := by
  cases h with
  | nil => exact (join _ .nil).parens
  | cons h hrest =>
    cases hrest with
    | nil => exact h
    | cons h' hrest => exact (join _ (.cons h (.cons h' hrest))).parens

theorem membership (keyword whenEmpty : String) (h : List.Forall₂ (Alike W) as as') :
    Alike W (Op.membership keyword whenEmpty as) (Op.membership keyword whenEmpty as') := by
  cases h with
  | nil => exact raw _
  | cons h hrest =>
    cases hrest with
    | nil => exact raw _
    | cons h' hrest => exact (h.pushRaw _).append (join _ (.cons h' hrest)).parens

/-- An operator puts the same text around its operands, whatever their arguments are. -/
theorem standard (escape : String) (op : Op) (h : List.Forall₂ (Alike W) as as') :
    Alike W (op.standard escape as) (op.standard escape as') := by
  have ha := getD h 0
  have hb := getD h 1
  have hc := getD h 2
  cases op with
  | eq | ne | gt | ge | lt | le | like => exact ha.infixed _ hb
  | startsWith | endsWith | contains => exact (ha.infixed _ hb).pushRaw _
  | isIn | notIn => exact membership _ _ h
  | isNull | isNotNull => exact ha.pushRaw _
  | between => exact (((ha.pushRaw _).append hb).pushRaw _).append hc
  | and | or =>
    cases h with
    | nil => exact raw _
    | cons h hrest => exact chained _ (.cons h hrest)
  | xor | add | sub | mul | div | mod => exact (ha.infixed _ hb).parens
  | not => exact (raw _).append ha.parens
  | neg | countDistinct => exact ((raw _).append ha).append (raw _)
  | concat => exact chained _ h
  | lower | upper | count | sum | min | max | avg | coalesce => exact func _ h
  | countAll | now => exact raw _
  | dateAddSeconds => exact (((ha.pushRaw _).append hb.parens).pushRaw _).parens

theorem operator (d : Dialect) (op : Op) (h : List.Forall₂ (Alike W) as as') :
    Alike W (d.operator op as) (d.operator op as') := by
  have ha := getD h 0
  have hb := getD h 1
  unfold Dialect.operator
  split
  · exact ((((raw _).append ha).pushRaw _).append hb.parens).pushRaw _
  · exact raw _
  · exact (((ha.pushRaw _).append hb).pushRaw _).parens
  · exact func _ h
  · exact (join _ h).parens
  · exact ((((raw _).append ha).pushRaw _).append hb).pushRaw _
  · exact standard _ op h

/-- The end of a statement has no arguments. -/
theorem limitClause (d : Dialect) (limit offset : Option UInt64) :
    Alike W (d.limitClause limit offset) (d.limitClause limit offset) := by
  unfold Dialect.limitClause
  dsimp only
  split
  · exact empty
  all_goals first | exact raw _ | exact (raw _).append (raw _)

/-- Neither has a FROM clause. -/
theorem source (f : From) : Alike W f.sql f.sql := by
  have hjoin (j : JoinClause) : Alike W j.sql j.sql :=
    ((((((raw _).pushIdent _).pushRaw _).pushIdent _).pushRaw _).append
      ((qualified _ _).pushRaw _)).append (qualified _ _)
  have hjoins : ∀ (joins : List JoinClause) {s s' : Sql}, Alike W s s' →
      Alike W (joins.foldl (fun s j => s ++ j.sql) s) (joins.foldl (fun s j => s ++ j.sql) s') := by
    intro joins
    induction joins with
    | nil => exact id
    | cons j joins ih => exact fun h => ih (h.append (hjoin j))
  exact hjoins f.joins ((((raw _).pushIdent _).pushRaw _).pushIdent _)

/-- Alike fragments have the same text. -/
theorem render_sql (h : Alike W a a') (d : Dialect) : (a.render d).sql = (a'.render d).sql := by
  have htext : ∀ {cs cs' : List Chunk}, List.Forall₂ (Chunk.Alike W) cs cs' → ∀ i,
      textFrom d i cs = textFrom d i cs' := by
    intro cs cs' h
    induction h with
    | nil => exact fun _ => rfl
    | cons hc _ ih => cases hc <;> exact fun i => by simp only [textFrom, ih]
  exact htext h.chunks 1

/-- Alike fragments have related arguments. -/
theorem render_args (h : Alike W a a') (d : Dialect) :
    List.Forall₂ W (a.render d).args (a'.render d).args := by
  have hparams : ∀ {cs cs' : List Chunk}, List.Forall₂ (Chunk.Alike W) cs cs' →
      List.Forall₂ W (params ⟨cs⟩) (params ⟨cs'⟩) := by
    intro cs cs' h
    induction h with
    | nil => exact .nil
    | cons hc _ ih =>
      cases hc with
      | raw | ident => exact ih
      | param hv => exact .cons hv ih
  exact hparams h.chunks

end Sql.Alike

/-! ## Expressions that are alike -/

/-- The rows of a selection. -/
def Expr.isRows : Expr → Bool
  | .rows _ => true
  | _ => false

/-- Two expressions that a dialect writes alike. -/
structure Expr.Alike (W : Value → Value → Prop) (d : Dialect) (e e' : Expr) : Prop where
  isRows : e.isRows = e'.isRows
  sql : Sql.Alike W (e.sql d) (e'.sql d)

/-- Two selections that a dialect writes alike. -/
def SelectOf.Alike (W : Value → Value → Prop) (d : Dialect) (s s' : Select) : Prop :=
  Sql.Alike W (s.sql d) (s'.sql d)

/-- Alike expressions, under the same name. -/
structure SelectItem.Alike (W : Value → Value → Prop) (d : Dialect) (i i' : SelectItem Expr) :
    Prop where
  expr : i.expr.Alike W d i'.expr
  name : i.name = i'.name

/-- Alike expressions, in the same direction. -/
structure SortItem.Alike (W : Value → Value → Prop) (d : Dialect) (i i' : SortItem Expr) :
    Prop where
  expr : i.expr.Alike W d i'.expr
  descending : i.descending = i'.descending

namespace Expr.Alike

variable {e e' : Expr} {es es' : List Expr}

theorem sqls (h : List.Forall₂ (Alike W d) es es') :
    List.Forall₂ (Sql.Alike W) (Expr.sqls d es) (Expr.sqls d es') := by
  induction h with
  | nil =>
    rw [Expr.sqls]
    exact .nil
  | cons h _ ih =>
    rw [Expr.sqls, Expr.sqls]
    exact .cons h.sql ih

theorem endsInRows : ∀ {es es' : List Expr}, List.Forall₂ (Alike W d) es es' →
    Expr.endsInRows es = Expr.endsInRows es'
  | [], [], _ => rfl
  | [e], [e'], .cons h _ => by
    have hrows (e : Expr) : Expr.endsInRows [e] = e.isRows := by cases e <;> rfl
    rw [hrows, hrows, h.isRows]
  | e₁ :: e₂ :: es, e₁' :: e₂' :: es', .cons _ hrest => by
    simpa only [Expr.endsInRows] using endsInRows hrest

theorem applied (op : Op) (lastIsRows : Bool) {as as' : List Sql}
    (h : List.Forall₂ (Sql.Alike W) as as') :
    Sql.Alike W (Expr.applied d op lastIsRows as) (Expr.applied d op lastIsRows as') := by
  have hplain := Sql.Alike.operator (W := W) d op h
  unfold Expr.applied
  cases Expr.membershipKeyword? op with
  | none => exact hplain
  | some keyword =>
    cases lastIsRows with
    | false => exact hplain
    | true =>
      match as, as', h with
      | [], [], _ | [_], [_], _ | _ :: _ :: _ :: _, _ :: _ :: _ :: _, _ => exact hplain
      | [_, _], [_, _], .cons ha (.cons hb .nil) => exact (ha.pushRaw keyword).append hb

theorem column (ref : ColumnRef) : Alike W d (.column ref) (.column ref) where
  isRows := rfl
  sql := by
    rw [Expr.sql]
    exact .qualified _ _

theorem param {v v' : Value} (h : W v v') : Alike W d (.param v) (.param v') where
  isRows := rfl
  sql := by
    rw [Expr.sql, Expr.sql]
    exact .param h

theorem parens (h : Alike W d e e') : Alike W d (.parens e) (.parens e') where
  isRows := rfl
  sql := by
    rw [Expr.sql, Expr.sql]
    exact h.sql.parens

theorem apply (op : Op) (h : List.Forall₂ (Alike W d) es es') :
    Alike W d (.apply op es) (.apply op es') where
  isRows := rfl
  sql := by
    rw [Expr.sql, Expr.sql, endsInRows h]
    exact applied op _ (sqls h)

theorem rows {s s' : Select} (h : s.Alike W d s') : Alike W d (.rows s) (.rows s') where
  isRows := rfl
  sql := by
    rw [Expr.sql, Expr.sql]
    exact Sql.Alike.parens h

end Expr.Alike

theorem SelectItem.Alike.itemSqls : ∀ {is is' : List (SelectItem Expr)},
    List.Forall₂ (Alike W d) is is' →
      List.Forall₂ (Sql.Alike W) (Expr.itemSqls d is) (Expr.itemSqls d is')
  | [], [], _ => by
    rw [Expr.itemSqls]
    exact .nil
  | ⟨e, name⟩ :: _, ⟨e', name'⟩ :: _, .cons ⟨he, hname⟩ hrest => by
    obtain rfl : name = name' := hname
    cases name with
    | none =>
      rw [Expr.itemSqls, Expr.itemSqls]
      exact .cons he.sql (itemSqls hrest)
    | some name =>
      rw [Expr.itemSqls, Expr.itemSqls]
      exact .cons (he.sql.named name) (itemSqls hrest)

theorem SortItem.Alike.sortSqls : ∀ {is is' : List (SortItem Expr)},
    List.Forall₂ (Alike W d) is is' →
      List.Forall₂ (Sql.Alike W) (Expr.sortSqls d is) (Expr.sortSqls d is')
  | [], [], _ => by
    rw [Expr.sortSqls]
    exact .nil
  | ⟨e, descending⟩ :: _, ⟨e', descending'⟩ :: _, .cons ⟨he, hdescending⟩ hrest => by
    obtain rfl : descending = descending' := hdescending
    rw [Expr.sortSqls, Expr.sortSqls]
    exact .cons (he.sql.pushRaw _) (sortSqls hrest)

theorem Sql.Alike.clause (keyword : String) {write write' : List Sql → Sql} {as as' : List Sql}
    (h : List.Forall₂ (Alike W) as as') (hwrite : Alike W (write as) (write' as')) :
    Alike W (Expr.clause keyword write as) (Expr.clause keyword write' as') := by
  cases h with
  | nil => exact .empty
  | cons => exact (Alike.raw keyword).append hwrite

/-- A selection is written alike when its parts are. -/
theorem SelectOf.Alike.mk {items items' : List (SelectItem Expr)}
    {conditions conditions' groupBys groupBys' having having' : List Expr}
    {orderBys orderBys' : List (SortItem Expr)} (source : From) (limit offset : Option UInt64)
    (distinct locked : Bool) (hitems : List.Forall₂ (SelectItem.Alike W d) items items')
    (hconditions : List.Forall₂ (Expr.Alike W d) conditions conditions')
    (hgroupBys : List.Forall₂ (Expr.Alike W d) groupBys groupBys')
    (hhaving : List.Forall₂ (Expr.Alike W d) having having')
    (horderBys : List.Forall₂ (SortItem.Alike W d) orderBys orderBys') :
    SelectOf.Alike W d
      ⟨distinct, items, source, conditions, groupBys, having, orderBys, limit, offset, locked⟩
      ⟨distinct, items', source, conditions', groupBys', having', orderBys', limit, offset,
        locked⟩ := by
  have hconditions := Expr.Alike.sqls hconditions
  have hgroupBys := Expr.Alike.sqls hgroupBys
  have hhaving := Expr.Alike.sqls hhaving
  have horderBys := SortItem.Alike.sortSqls horderBys
  have hlocked : Sql.Alike W (if locked && d.locksRows then Sql.raw " FOR UPDATE" else Sql.empty)
      (if locked && d.locksRows then Sql.raw " FOR UPDATE" else Sql.empty) := by
    split
    · exact .raw _
    · exact .empty
  unfold SelectOf.Alike SelectOf.sql
  rw [Expr.selectSql, Expr.selectSql]
  exact ((((((((Sql.Alike.raw _).append (.join _ (SelectItem.Alike.itemSqls hitems))).append
    (.source source)).append (.clause _ hconditions (.operator d .and hconditions))).append
    (.clause _ hgroupBys (.join _ hgroupBys))).append
    (.clause _ hhaving (.operator d .and hhaving))).append
    (.clause _ horderBys (.join _ horderBys))).append (.limitClause d limit offset)).append hlocked

end RecordGraph
