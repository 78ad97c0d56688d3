import ElectricCircuits.WhereClause

/-! The grammar of WHERE clauses, and how far the parser follows it with SQL's reading. -/
namespace ElectricCircuits
namespace WhereSql
open ThreeValued

/-- The nonterminals, the loosest first. -/
inductive Level where
  | disjunction
  | conjunction
  | negation
  | primary

def optNot (negated : Bool) (toks : List Tok) : List Tok := if negated then .not :: toks else toks

/-- A list of constants with commas between them. -/
inductive Literals : List Tok → List Tok → List Tok → Prop
  | one {t : Tok} {us : List Tok} (h : isConstant [t] = true) : Literals (t :: us) [t] us
  | more {t : Tok} {ts us vs : List Tok} (h : isConstant [t] = true) (hs : Literals ts vs us) :
    Literals (t :: .comma :: ts) (t :: vs) us

/-- The derivations of the grammar: a clause at the front of the tokens, and what is left of them. Constants
may have any operator between them and LIKE any constant after it, as the parser has it. -/
inductive Derives : Level → List Tok → Clause → List Tok → Prop
  | orOne {ts us : List Tok} {c : Clause} (h : Derives .conjunction ts c us) : Derives .disjunction ts c us
  | orMore {ts us vs : List Tok} {c d : Clause} (h : Derives .conjunction ts c (.or :: us))
    (h' : Derives .disjunction us d vs) : Derives .disjunction ts (.or c d) vs
  | andOne {ts us : List Tok} {c : Clause} (h : Derives .negation ts c us) : Derives .conjunction ts c us
  | andMore {ts us vs : List Tok} {c d : Clause} (h : Derives .negation ts c (.and :: us))
    (h' : Derives .conjunction us d vs) : Derives .conjunction ts (.and c d) vs
  | notOne {ts us : List Tok} {c : Clause} (h : Derives .primary ts c us) : Derives .negation ts c us
  | notMore {ts us : List Tok} {c : Clause} (h : Derives .negation ts c us) :
    Derives .negation (.not :: ts) (.not c) us
  | paren {ts us : List Tok} {c : Clause} (h : Derives .disjunction ts c (.rparen :: us)) :
    Derives .primary (.lparen :: ts) c us
  | compare {col s : String} {negated : Bool} {op : LeafOp} {t : Tok} {us : List Tok}
    (hop : leafOp s = some op) (h : isConstant [t] = true) :
    Derives .primary (.ident col :: optNot negated (.op s :: t :: us)) (.compare col negated op t) us
  | like {col : String} {negated : Bool} {t : Tok} {us : List Tok} (h : isConstant [t] = true) :
    Derives .primary (.ident col :: optNot negated (.like :: t :: us)) (.like col negated t) us
  | between {col : String} {negated : Bool} {t t' : Tok} {us : List Tok} (h : isConstant [t] = true)
    (h' : isConstant [t'] = true) :
    Derives .primary (.ident col :: optNot negated (.between :: t :: .and :: t' :: us))
      (.between col negated t t') us
  | isNull {col : String} {negated : Bool} {us : List Tok} :
    Derives .primary (.ident col :: .is :: optNot negated (.null :: us)) (.isNull col negated) us
  | inList {col : String} {negated : Bool} {ts us vs : List Tok} (h : Literals ts vs (.rparen :: us)) :
    Derives .primary (.ident col :: optNot negated (.in_ :: .lparen :: ts)) (.inList col negated vs) us
  | inSelect {col project raw : String} {negated : Bool} {us : List Tok} :
    Derives .primary (.ident col :: optNot negated
      (.in_ :: .lparen :: .select :: .ident project :: .from_ :: .ident raw :: .rparen :: us))
      (.inSelect col negated raw project) us
  | inSelectWhere {col project raw : String} {negated : Bool} {ts us : List Tok} {w : Clause}
    (h : Derives .disjunction ts w (.rparen :: us)) :
    Derives .primary (.ident col :: optNot negated
      (.in_ :: .lparen :: .select :: .ident project :: .from_ :: .ident raw :: .where_ :: ts))
      (.inSelectWhere col negated raw project w) us
  | const {a b : Tok} {s : String} {us : List Tok} (ha : isConstant [a] = true) (hb : isConstant [b] = true) :
    Derives .primary (a :: .op s :: b :: us) (.const a s b) us

variable (parseF64 : String → Option OrderedFloat)

/-- A constant that the parser can read: a numeral is a 64-bit integer or has a finite double. -/
def Readable (t : Tok) : Prop := ∃ v, literal parseF64 t = .ok v

/-- What the parser asks of a clause beyond its derivation: constants that it can read, null tests on columns of the
schema, also those of an inner table, and inner tables that a reference can name. -/
def Clause.Accepted (schema : Option TableSchema) : Clause → Prop
  | .compare _ _ _ t => Readable parseF64 t
  | .like _ _ t => Readable parseF64 t
  | .between _ _ lo hi => Readable parseF64 lo ∧ Readable parseF64 hi
  | .isNull col _ => checkColumn schema col = .ok ()
  | .inList _ _ toks => ∀ t ∈ toks, Readable parseF64 t
  | .inSelect _ _ raw _ => ∃ table, innerTable raw = .ok table
  | .inSelectWhere _ _ raw _ w => (∃ table, innerTable raw = .ok table) ∧ w.Accepted schema
  | .const a _ b => Readable parseF64 a ∧ Readable parseF64 b
  | .not c => c.Accepted schema
  | .and c d => c.Accepted schema ∧ d.Accepted schema
  | .or c d => c.Accepted schema ∧ d.Accepted schema

/-- The parser's verdict on two constants. -/
def verdict (a : Tok) (s : String) (b : Tok) : Bool :=
  match literal parseF64 a,literal parseF64 b with
  | .ok v,.ok w => evalConst v.json s w.json
  | _,_ => Bool.false

variable {parseF64} {schema : Option TableSchema}

@[simp] lemma eatNot_optNot {negated : Bool} {t : Tok} {ts : List Tok} (h : t ≠ .not) :
    eatNot (optNot negated (t :: ts)) = (negated,t :: ts) := by
  cases negated with
  | true => rfl
  | false => cases t <;> first | rfl | exact absurd rfl h

lemma optNot_eatNot (ts : List Tok) : optNot (eatNot ts).1 (eatNot ts).2 = ts := by
  unfold eatNot
  split <;> rfl

@[simp] lemma length_optNot (negated : Bool) (ts : List Tok) :
    (optNot negated ts).length = ts.length+negated.toNat := by
  cases negated <;> rfl

lemma literal_isConstant {t : Tok} {v : Literal} (h : literal parseF64 t = .ok v) (ts : List Tok) :
    isConstant (t :: ts) = true := by
  cases t <;> first | rfl | cases h

lemma Literals.length_lt {ts us vs : List Tok} (h : Literals ts vs us) :
    us.length < ts.length := by
  induction h with
  | one _ => exact Nat.lt_succ_self _
  | more _ _ ih =>
    simp only [List.length_cons]
    omega

namespace Derives

/-- A derivation takes a token at least. -/
lemma length_lt {L : Level} {ts us : List Tok} {c : Clause} (h : Derives L ts c us) :
    us.length < ts.length := by
  induction h with
  | orOne _ ih => exact ih
  | andOne _ ih => exact ih
  | notOne _ ih => exact ih
  | inList h =>
    have hlt := h.length_lt
    simp only [List.length_cons,length_optNot] at *
    omega
  | _ =>
    simp only [List.length_cons,length_optNot] at *
    omega

/-- A predicate or a parenthesis starts neither with NOT nor with what ends one. -/
lemma head_primary {ts us : List Tok} {c : Clause} (h : Derives .primary ts c us) :
    ts.head? ≠ some .not := by
  cases h with
  | const ha _ =>
    rintro ⟨⟩
    cases ha
  | _ => simp

end Derives

lemma orTail_of_ne {n : ℕ} {ts : List Tok} (h : ts.head? ≠ some .or) :
    orTail parseF64 schema (n+1) ts = .ok ([],ts) := by
  cases ts with
  | nil => rw [orTail]; simp
  | cons t ts => cases t <;> first | rfl | exact absurd rfl h

lemma andTail_of_ne {n : ℕ} {ts : List Tok} (h : ts.head? ≠ some .and) :
    andTail parseF64 schema (n+1) ts = .ok ([],ts) := by
  cases ts with
  | nil => rw [andTail]; simp
  | cons t ts => cases t <;> first | rfl | exact absurd rfl h

lemma parseWhere_of_ne {n : ℕ} {ts : List Tok} (h : ts.head? ≠ some .where_) :
    parseWhere parseF64 schema (n+1) ts = .ok (none,ts) := by
  cases ts with
  | nil => rw [parseWhere]; simp
  | cons t ts => cases t <;> first | rfl | exact absurd rfl h

lemma parseNot_of_ne {n : ℕ} {ts : List Tok} (h : ts.head? ≠ some .not) :
    parseNot parseF64 schema (n+1) ts = parsePrimary parseF64 schema n ts := by
  cases ts with
  | nil => rw [parseNot]; simp
  | cons t ts => cases t <;> first | rfl | exact absurd rfl h

lemma parsePrimary_of_ne {n : ℕ} {ts : List Tok} (h : ts.head? ≠ some .lparen) :
    parsePrimary parseF64 schema (n+1) ts = parsePredicate parseF64 schema n ts := by
  cases ts with
  | nil => rw [parsePrimary]; simp
  | cons t ts => cases t <;> first | rfl | exact absurd rfl h

variable (parseF64)

/-- The parser decides every comparison of constants in the clause that SQL has as SQL does. -/
def Clause.Agrees (co : Coercion) (c : Clause) : Prop :=
  ∀ k ∈ c.consts, ∀ t, sqlConst co k.1 k.2.1 k.2.2 = some t → verdict parseF64 k.1 k.2.1 k.2.2 = t

/-- A predicate that reads as the clause wherever SQL has a value: it compiles exactly when the constants suit their
columns, and then it has SQL's value, if constants agree and no subquery mixes integers with doubles. -/
def Reads (c : Clause) (p : PredicateJson) : Prop :=
  CorrectlyRounded parseF64 → ∀ (co : Coercion) (db : Database), co.Standard parseF64 → db.Typed → c.Named →
    ∀ ts f, c.sql co db ts = some f → (db.Compiles parseF64 p ts ↔ c.Suits parseF64 db ts) ∧
      (c.Agrees parseF64 co → c.Unmixed db ts → c.Suits parseF64 db ts → ∀ row, ts.Typed row →
        db.truth parseF64 p ts row = f row)

variable (schema)

/-- What the parser makes of a derivation. -/
def Parsed : Level → ℕ → List Tok → Clause → List Tok → Prop
  | .disjunction,n,ts,c,us => ∃ p ps ms, parseAnd parseF64 schema n ts = .ok (p,ms) ∧
    orTail parseF64 schema n ms = .ok (ps,us) ∧ Reads parseF64 c (joined .or p ps)
  | .conjunction,n,ts,c,us => ∃ p ps ms, parseNot parseF64 schema n ts = .ok (p,ms) ∧
    andTail parseF64 schema n ms = .ok (ps,us) ∧ Reads parseF64 c (joined .and p ps)
  | .negation,n,ts,c,us => ∃ p, parseNot parseF64 schema n ts = .ok (p,us) ∧ Reads parseF64 c p
  | .primary,n,ts,c,us => ∃ p, parsePrimary parseF64 schema n ts = .ok (p,us) ∧ Reads parseF64 c p

/-- What follows a phrase does not prolong it. -/
def Stops : Level → List Tok → Prop
  | .disjunction,us => us.head? ≠ some .or ∧ us.head? ≠ some .and
  | .conjunction,us => us.head? ≠ some .and
  | _,_ => True

def rank : Level → ℕ
  | .disjunction => 4
  | .conjunction => 3
  | .negation => 2
  | .primary => 1

variable {parseF64 schema}

lemma truth_joined_or (db : Database) (p q : PredicateJson) (ps : List PredicateJson) (ts : TableSchema)
    (row : Row) : db.truth parseF64 (joined .or p (q :: ps)) ts row =
      Truth.max (db.truth parseF64 p ts row) (db.truth parseF64 (joined .or q ps) ts row) := by
  change db.truth parseF64 (.or (p :: q :: ps)) ts row = _
  rw [Database.truth,Database.truthAll_eq,List.map_cons,Truth.disj_cons]
  cases ps with
  | nil =>
    change Truth.max _ (Truth.max (db.truth parseF64 q ts row) .no) = Truth.max _ (db.truth parseF64 q ts row)
    cases db.truth parseF64 q ts row <;> rfl
  | cons r rs =>
    change _ = Truth.max _ (db.truth parseF64 (.or (q :: r :: rs)) ts row)
    rw [Database.truth,Database.truthAll_eq]

lemma truth_joined_and (db : Database) (p q : PredicateJson) (ps : List PredicateJson) (ts : TableSchema)
    (row : Row) : db.truth parseF64 (joined .and p (q :: ps)) ts row =
      Truth.min (db.truth parseF64 p ts row) (db.truth parseF64 (joined .and q ps) ts row) := by
  change db.truth parseF64 (.and (p :: q :: ps)) ts row = _
  rw [Database.truth,Database.truthAll_eq,List.map_cons,Truth.conj_cons]
  cases ps with
  | nil =>
    change Truth.min _ (Truth.min (db.truth parseF64 q ts row) .yes) = Truth.min _ (db.truth parseF64 q ts row)
    cases db.truth parseF64 q ts row <;> rfl
  | cons r rs =>
    change _ = Truth.min _ (db.truth parseF64 (.and (q :: r :: rs)) ts row)
    rw [Database.truth,Database.truthAll_eq]

lemma truth_negate (db : Database) (negated : Bool) (p : PredicateJson) (us : List Tok) (ts : TableSchema) (row : Row) :
    db.truth parseF64 (negate negated (p,us)).1 ts row = flip negated (db.truth parseF64 p ts row) := by
  cases negated with
  | true => rw [negate,if_pos rfl,Database.truth,flip,if_pos rfl]
  | false => rfl

/-- The literals of a list are read to its end. -/
lemma Literals.parse {ts us toks : List Tok} (h : Literals ts toks (.rparen :: us))
    (hread : ∀ t ∈ toks, Readable parseF64 t) :
    ∃ t ts' v vs, ts = t :: ts' ∧ literal parseF64 t = .ok v ∧
      literalTail parseF64 ts' = .ok (vs,.rparen :: us) ∧
      List.Forall₂ (fun t v => literal parseF64 t = .ok v) toks (v :: vs) := by
  generalize hrest : Tok.rparen :: us = rest at h
  induction h with
  | one h =>
    subst hrest
    obtain ⟨v,hv⟩ := hread _ (.head _)
    exact ⟨_,_,v,[],rfl,hv,rfl,.cons hv .nil⟩
  | more h _ ih =>
    obtain ⟨w,hw⟩ := hread _ (.head _)
    obtain ⟨t,ts',v,vs,rfl,hv,htail,hall⟩ := ih (fun t ht => hread t (.tail _ ht)) hrest
    refine ⟨_,_,w,v :: vs,rfl,hw,?_,.cons hw hall⟩
    rw [literalTail,hv]
    simp only [htail]
    rfl

lemma compiles_joined_or (db : Database) (p q : PredicateJson) (ps : List PredicateJson) (ts : TableSchema) :
    db.Compiles parseF64 (joined .or p (q :: ps)) ts ↔
      db.Compiles parseF64 p ts ∧ db.Compiles parseF64 (joined .or q ps) ts := by
  change db.Compiles parseF64 (.or (p :: q :: ps)) ts ↔ _
  cases ps with
  | nil => simp [Database.Compiles,Database.CompileAll,joined]
  | cons r rs => rw [Database.Compiles,Database.CompileAll,joined,Database.Compiles]; simp

lemma compiles_joined_and (db : Database) (p q : PredicateJson) (ps : List PredicateJson) (ts : TableSchema) :
    db.Compiles parseF64 (joined .and p (q :: ps)) ts ↔
      db.Compiles parseF64 p ts ∧ db.Compiles parseF64 (joined .and q ps) ts := by
  change db.Compiles parseF64 (.and (p :: q :: ps)) ts ↔ _
  cases ps with
  | nil => simp [Database.Compiles,Database.CompileAll,joined]
  | cons r rs => rw [Database.Compiles,Database.CompileAll,joined,Database.Compiles]; simp

lemma compiles_negate (db : Database) (negated : Bool) (p : PredicateJson) (us : List Tok) (ts : TableSchema) :
    db.Compiles parseF64 (negate negated (p,us)).1 ts ↔ db.Compiles parseF64 p ts := by
  cases negated with
  | true => rw [negate,if_pos rfl,Database.Compiles]
  | false => rfl

lemma columnIndex_of_toOption {ts : TableSchema} {col : String} {idx : ℕ}
    (h : (ts.columnIndex col).toOption = some idx) : ts.columnIndex col = .ok idx := by
  cases hidx : ts.columnIndex col with
  | error e => rw [hidx] at h; cases h
  | ok i => rw [hidx] at h; cases h; rfl

section Reads
variable {c d w : Clause} {p q : PredicateJson} {ps : List PredicateJson} {col : String} {negated : Bool}
  {t t' : Tok} {v v' : Literal} {us : List Tok}

lemma Reads.or (h : Reads parseF64 c p) (h' : Reads parseF64 d (joined .or q ps)) :
    Reads parseF64 (.or c d) (joined .or p (q :: ps)) := by
  intro hround co db hco hdb hnamed ts f hf
  simp only [Clause.sql,Option.bind_eq_bind,Option.bind_eq_some_iff,Option.pure_def,Option.some.injEq] at hf
  obtain ⟨g,hg,g',hg',rfl⟩ := hf
  obtain ⟨hcompiles,htruth⟩ := h hround co db hco hdb hnamed.1 ts g hg
  obtain ⟨hcompiles',htruth'⟩ := h' hround co db hco hdb hnamed.2 ts g' hg'
  refine ⟨by rw [compiles_joined_or,hcompiles,hcompiles',Clause.Suits],fun hagrees hmixed hsuits row hrow => ?_⟩
  rw [truth_joined_or,htruth (fun k hk => hagrees k (List.mem_append_left _ hk)) hmixed.1 hsuits.1 row hrow,
    htruth' (fun k hk => hagrees k (List.mem_append_right _ hk)) hmixed.2 hsuits.2 row hrow]

lemma Reads.and (h : Reads parseF64 c p) (h' : Reads parseF64 d (joined .and q ps)) :
    Reads parseF64 (.and c d) (joined .and p (q :: ps)) := by
  intro hround co db hco hdb hnamed ts f hf
  simp only [Clause.sql,Option.bind_eq_bind,Option.bind_eq_some_iff,Option.pure_def,Option.some.injEq] at hf
  obtain ⟨g,hg,g',hg',rfl⟩ := hf
  obtain ⟨hcompiles,htruth⟩ := h hround co db hco hdb hnamed.1 ts g hg
  obtain ⟨hcompiles',htruth'⟩ := h' hround co db hco hdb hnamed.2 ts g' hg'
  refine ⟨by rw [compiles_joined_and,hcompiles,hcompiles',Clause.Suits],fun hagrees hmixed hsuits row hrow => ?_⟩
  rw [truth_joined_and,htruth (fun k hk => hagrees k (List.mem_append_left _ hk)) hmixed.1 hsuits.1 row hrow,
    htruth' (fun k hk => hagrees k (List.mem_append_right _ hk)) hmixed.2 hsuits.2 row hrow]

lemma Reads.not (h : Reads parseF64 c p) : Reads parseF64 (.not c) (.not p) := by
  intro hround co db hco hdb hnamed ts f hf
  simp only [Clause.sql,Option.bind_eq_bind,Option.bind_eq_some_iff,Option.pure_def,Option.some.injEq] at hf
  obtain ⟨g,hg,rfl⟩ := hf
  obtain ⟨hcompiles,htruth⟩ := h hround co db hco hdb hnamed ts g hg
  refine ⟨by rw [Database.Compiles,hcompiles,Clause.Suits],fun hagrees hmixed hsuits row hrow => ?_⟩
  rw [Database.truth,htruth hagrees hmixed hsuits row hrow]

lemma Reads.compare {op : LeafOp} (hv : literal parseF64 t = .ok v) :
    Reads parseF64 (.compare col negated op t) (negate negated (.leaf col op v,us)).1 := by
  intro hround co db hco _ _ ts f hf
  simp only [Clause.sql,Option.bind_eq_bind,Option.bind_eq_some_iff,Option.pure_def,Option.some.injEq] at hf
  obtain ⟨idx,hidx,test,htest,rfl⟩ := hf
  replace hidx := columnIndex_of_toOption hidx
  obtain ⟨hsuits,hread⟩ := leafTruth_reads hround hco hidx htest hv
  have hclause : (Clause.compare col negated op t).Suits parseF64 db ts ↔
      Suits parseF64 (ts.columnType idx) t := by
    rw [Clause.Suits,hidx]
    simp
  refine ⟨by rw [compiles_negate,Database.Compiles,hsuits,hclause],fun _ _ h row hrow => ?_⟩
  rw [truth_negate,Database.truth,hread (hclause.mp h) row hrow]

lemma Reads.like (hv : literal parseF64 t = .ok v) :
    Reads parseF64 (.like col negated t) (negate negated (.leaf col .like v,us)).1 :=
  show Reads parseF64 (.compare col negated .like t) _ from Reads.compare hv

lemma Reads.between (hv : literal parseF64 t = .ok v) (hv' : literal parseF64 t' = .ok v') :
    Reads parseF64 (.between col negated t t')
      (negate negated (.and [.leaf col .gte v,.leaf col .lte v'],us)).1 := by
  intro hround co db hco _ _ ts f hf
  simp only [Clause.sql,Option.bind_eq_bind,Option.bind_eq_some_iff,Option.pure_def,Option.some.injEq] at hf
  obtain ⟨idx,hidx,low,hlow,high,hhigh,rfl⟩ := hf
  replace hidx := columnIndex_of_toOption hidx
  obtain ⟨hsuits,hread⟩ := leafTruth_reads hround hco hidx hlow hv
  obtain ⟨hsuits',hread'⟩ := leafTruth_reads hround hco hidx hhigh hv'
  have hclause : (Clause.between col negated t t').Suits parseF64 db ts ↔
      Suits parseF64 (ts.columnType idx) t ∧ Suits parseF64 (ts.columnType idx) t' := by
    rw [Clause.Suits,hidx]
    simp
  refine ⟨?_,fun _ _ h row hrow => ?_⟩
  · rw [compiles_negate]
    change db.Compiles parseF64 (joined .and (.leaf col .gte v) [.leaf col .lte v']) ts ↔ _
    rw [compiles_joined_and,joined,Database.Compiles,Database.Compiles,hsuits,hsuits',hclause]
  · rw [truth_negate]
    change flip negated (db.truth parseF64 (joined .and (.leaf col .gte v) [.leaf col .lte v']) ts row) = _
    rw [truth_joined_and,joined,Database.truth,Database.truth,hread (hclause.mp h).1 row hrow,
      hread' (hclause.mp h).2 row hrow]

lemma Reads.isNull : Reads parseF64 (.isNull col negated) (.isNull col !negated) := by
  intro _ co db _ _ _ ts f hf
  simp only [Clause.sql,Option.bind_eq_bind,Option.bind_eq_some_iff,Option.pure_def,Option.some.injEq] at hf
  obtain ⟨idx,hidx,rfl⟩ := hf
  replace hidx := columnIndex_of_toOption hidx
  refine ⟨iff_of_true ⟨idx,hidx⟩ trivial,fun _ _ _ row _ => ?_⟩
  rw [Database.truth,Database.cellNamed,hidx]
  cases negated <;> cases hnull : decide (row.cell idx = .null) <;> simp only [hnull] <;> rfl

/-- The leaves of a list are those of its constants. -/
lemma leaves_of_list (hround : CorrectlyRounded parseF64) {co : Coercion} (hco : co.Standard parseF64)
    {ts : TableSchema} {idx : ℕ} (hidx : ts.columnIndex col = .ok idx) {toks : List Tok} {vs : List Literal}
    (hvs : List.Forall₂ (fun t v => literal parseF64 t = .ok v) toks vs) :
    ∀ tests, toks.mapM (sqlTest co (ts.columnType idx) .eq) = some tests → ∀ db : Database,
      (db.CompileAll parseF64 (vs.map (.leaf col .eq)) ts ↔ ∀ t ∈ toks, Suits parseF64 (ts.columnType idx) t) ∧
      ((∀ t ∈ toks, Suits parseF64 (ts.columnType idx) t) → ∀ row, ts.Typed row →
        db.truthAll parseF64 (vs.map (.leaf col .eq)) ts row = tests.map fun test => test (row.cell idx)) := by
  induction hvs with
  | nil =>
    rintro tests ⟨⟩ db
    exact ⟨iff_of_true trivial (by simp),fun _ _ _ => rfl⟩
  | cons hv _ ih =>
    intro tests htests db
    simp only [List.mapM_cons,Option.bind_eq_bind,Option.bind_eq_some_iff,Option.pure_def,Option.some.injEq]
      at htests
    obtain ⟨test,htest,rest,hrest,rfl⟩ := htests
    obtain ⟨hsuits,hread⟩ := leafTruth_reads hround hco hidx htest hv
    obtain ⟨hall,htruth⟩ := ih rest hrest db
    refine ⟨?_,fun h row hrow => ?_⟩
    · rw [List.map_cons,Database.CompileAll,Database.Compiles,hsuits,hall,List.forall_mem_cons]
    · rw [List.forall_mem_cons] at h
      rw [List.map_cons,Database.truthAll,Database.truth,hread h.1 row hrow,htruth h.2 row hrow,List.map_cons]

lemma Reads.inList {toks : List Tok} {vs : List Literal}
    (hvs : List.Forall₂ (fun t v => literal parseF64 t = .ok v) toks vs) :
    Reads parseF64 (.inList col negated toks) (negate negated (.or (vs.map (.leaf col .eq)),us)).1 := by
  intro hround co db hco _ _ ts f hf
  simp only [Clause.sql,Option.bind_eq_bind,Option.bind_eq_some_iff,Option.pure_def,Option.some.injEq] at hf
  obtain ⟨idx,hidx,tests,htests,rfl⟩ := hf
  replace hidx := columnIndex_of_toOption hidx
  obtain ⟨hall,htruth⟩ := leaves_of_list hround hco hidx hvs tests htests db
  have hclause : (Clause.inList col negated toks).Suits parseF64 db ts ↔
      ∀ t ∈ toks, Suits parseF64 (ts.columnType idx) t := by
    rw [Clause.Suits,hidx]
    simp
  refine ⟨by rw [compiles_negate,Database.Compiles,hall,hclause],fun _ _ h row hrow => ?_⟩
  rw [truth_negate,Database.truth,htruth (hclause.mp h) row hrow]

lemma Reads.inSelect {raw project table : String} (htable : innerTable raw = .ok table) :
    Reads parseF64 (.inSelect col negated raw project) (.inSubquery col negated table project none) := by
  intro _ co db _ _ hnamed ts f hf
  obtain rfl := Except.ok.inj (htable.symm.trans hnamed)
  simp only [Clause.sql,Option.bind_eq_bind,Option.bind_eq_some_iff,Option.pure_def,Option.some.injEq] at hf
  obtain ⟨idx,hidx,inner,hinner,p,hp,test,htest,rfl⟩ := hf
  replace hidx := columnIndex_of_toOption hidx
  replace hp := columnIndex_of_toOption hp
  refine ⟨iff_of_true ⟨⟨idx,hidx⟩,inner,hinner,⟨p,hp⟩,trivial⟩ trivial,fun _ hmixed _ row _ => ?_⟩
  obtain rfl := sqlSelect_eq htest (hmixed idx inner p hidx hinner hp)
  rw [Database.truth,Database.cellNamed,hidx,hinner]
  simp only [Database.column,hp,Database.whereHolds,List.filter_true,flip]

lemma Reads.inSelectWhere {raw project table : String} (htable : innerTable raw = .ok table)
    (h : Reads parseF64 w p) : Reads parseF64 (.inSelectWhere col negated raw project w)
      (.inSubquery col negated table project (some p)) := by
  intro hround co db hco hdb hnamed ts f hf
  obtain rfl := Except.ok.inj (htable.symm.trans hnamed.1)
  simp only [Clause.sql,Option.bind_eq_bind,Option.bind_eq_some_iff,Option.pure_def,Option.some.injEq] at hf
  obtain ⟨idx,hidx,inner,hinner,j,hj,test,htest,selects,hselects,rfl⟩ := hf
  replace hidx := columnIndex_of_toOption hidx
  replace hj := columnIndex_of_toOption hj
  obtain ⟨hcompiles,htruth⟩ := h hround co db hco hdb hnamed.2 inner selects hselects
  have hclause : (Clause.inSelectWhere col negated raw project w).Suits parseF64 db ts ↔
      w.Suits parseF64 db inner := by
    rw [Clause.Suits,hinner]
    simp
  refine ⟨?_,fun hagrees hmixed hsuits row _ => ?_⟩
  · rw [hclause,← hcompiles]
    constructor
    · rintro ⟨-,inner',hinner',-,hw⟩
      obtain rfl := Option.some.inj (hinner.symm.trans hinner')
      exact hw
    · exact fun hw => ⟨⟨idx,hidx⟩,inner,hinner,⟨j,hj⟩,hw⟩
  · obtain rfl := sqlSelect_eq htest (hmixed.1 idx inner j hidx hinner hj)
    have hrows : (db.rows ("public." ++ raw)).filter (db.whereHolds parseF64 (some p) inner) =
        (db.rows ("public." ++ raw)).filter fun row => decide (selects row = .yes) := by
      refine List.filter_congr fun row hrow => ?_
      rw [Database.whereHolds,htruth hagrees (hmixed.2 inner hinner) (hclause.mp hsuits) row
        (hdb _ inner hinner row hrow)]
    rw [Database.truth,Database.cellNamed,hidx,hinner]
    simp only [Database.column,hj,hrows,flip]

lemma Reads.const {s : String} (ha : literal parseF64 t = .ok v) (hb : literal parseF64 t' = .ok v') :
    Reads parseF64 (.const t s t') (if evalConst v.json s v'.json then .and [] else .or []) := by
  intro _ co db _ _ _ ts f hf
  simp only [Clause.sql,Option.bind_eq_bind,Option.bind_eq_some_iff,Option.pure_def,Option.some.injEq] at hf
  obtain ⟨b,hb',rfl⟩ := hf
  refine ⟨iff_of_true (by split <;> trivial) trivial,fun hagrees _ _ row _ => ?_⟩
  have hconst := hagrees _ (List.mem_singleton_self _) b hb'
  simp only [verdict,ha,hb] at hconst
  rw [hconst]
  cases b <;> rfl

end Reads

/-- A column predicate is parsed by what comes after its column. -/
lemma parsePrimary_ident {n : ℕ} {col : String} {ts : List Tok} :
    parsePrimary parseF64 schema (n+2) (.ident col :: ts) =
      parsePredicate parseF64 schema (n+1) (.ident col :: ts) :=
  parsePrimary_of_ne (by simp)

lemma parsePredicate_ident {n : ℕ} {col : String} {negated : Bool} {t : Tok} {ts : List Tok} (ht : t ≠ .not) :
    parsePredicate parseF64 schema (n+1) (.ident col :: optNot negated (t :: ts)) =
      parseColumn parseF64 schema n col negated (t :: ts) := by
  rw [parsePredicate]
  simp only [isConstant,Bool.false_eq_true,if_false,parseIdent,bind,Except.bind,eatNot_optNot ht]

lemma negate_eq (negated : Bool) (p : PredicateJson) (us : List Tok) :
    negate negated (p,us) = ((negate negated (p,us)).1,us) := by
  cases negated <;> rfl

/-- What the grammar derives and the parser accepts, the parser reads. -/
theorem Derives.parsed {L : Level} {ts us : List Tok} {c : Clause} (h : Derives L ts c us)
    (haccepted : c.Accepted parseF64 schema) (hstops : Stops L us) :
    ∀ n, 8*ts.length+rank L < n → Parsed parseF64 schema L n ts c us := by
  induction h with
  | orOne h ih =>
    intro n hn
    obtain ⟨m,rfl⟩ : ∃ m, n = m+1 := ⟨n-1,by omega⟩
    simp only [rank] at hn
    obtain ⟨p,ps,ms,hp,hps,hreads⟩ := ih haccepted hstops.2 m (by simp only [rank]; omega)
    refine ⟨joined .and p ps,[],_,?_,orTail_of_ne hstops.1,hreads⟩
    rw [parseAnd,hp]
    simp only [hps,bind,Except.bind,pure,Except.pure]
  | orMore h h' ih ih' =>
    rename_i us vs c d
    intro n hn
    obtain ⟨m,rfl⟩ : ∃ m, n = m+1 := ⟨n-1,by omega⟩
    simp only [rank] at hn
    have hlen := h.length_lt
    simp only [List.length_cons] at hlen
    obtain ⟨p,ps,ms,hp,hps,hreads⟩ := ih haccepted.1 (by simp [Stops]) m (by simp only [rank]; omega)
    obtain ⟨q,qs,ks,hq,hqs,hreads'⟩ := ih' haccepted.2 hstops m (by simp only [rank]; omega)
    refine ⟨joined .and p ps,q :: qs,.or :: us,?_,?_,hreads.or hreads'⟩
    · rw [parseAnd,hp]
      simp only [hps,bind,Except.bind,pure,Except.pure]
    · rw [orTail,hq]
      simp only [hqs,bind,Except.bind,pure,Except.pure]
  | andOne h ih =>
    intro n hn
    simp only [rank] at hn
    obtain ⟨m,rfl⟩ : ∃ m, n = m+1 := ⟨n-1,by omega⟩
    obtain ⟨p,hp,hreads⟩ := ih haccepted trivial (m+1) (by simp only [rank]; omega)
    exact ⟨p,[],_,hp,andTail_of_ne hstops,hreads⟩
  | andMore h h' ih ih' =>
    intro n hn
    simp only [rank] at hn
    obtain ⟨m,rfl⟩ : ∃ m, n = m+1 := ⟨n-1,by omega⟩
    have hlen := h.length_lt
    simp only [List.length_cons] at hlen
    obtain ⟨p,hp,hreads⟩ := ih haccepted.1 trivial (m+1) (by simp only [rank]; omega)
    obtain ⟨q,qs,ks,hq,hqs,hreads'⟩ := ih' haccepted.2 hstops m (by simp only [rank]; omega)
    refine ⟨p,q :: qs,_,hp,?_,hreads.and hreads'⟩
    rw [andTail,hq]
    simp only [hqs,bind,Except.bind,pure,Except.pure]
  | notOne h ih =>
    intro n hn
    simp only [rank] at hn
    obtain ⟨m,rfl⟩ : ∃ m, n = m+1 := ⟨n-1,by omega⟩
    obtain ⟨p,hp,hreads⟩ := ih haccepted trivial m (by simp only [rank]; omega)
    exact ⟨p,(parseNot_of_ne h.head_primary).trans hp,hreads⟩
  | notMore h ih =>
    intro n hn
    simp only [rank,List.length_cons] at hn
    obtain ⟨m,rfl⟩ : ∃ m, n = m+1 := ⟨n-1,by omega⟩
    obtain ⟨p,hp,hreads⟩ := ih haccepted trivial m (by simp only [rank]; omega)
    refine ⟨.not p,?_,hreads.not⟩
    rw [parseNot,hp]
    rfl
  | paren h ih =>
    intro n hn
    simp only [rank,List.length_cons] at hn
    obtain ⟨m,rfl⟩ : ∃ m, n = m+2 := ⟨n-2,by omega⟩
    obtain ⟨p,ps,ms,hp,hps,hreads⟩ := ih haccepted (by simp [Stops]) m (by simp only [rank]; omega)
    refine ⟨joined .or p ps,?_,hreads⟩
    rw [parsePrimary,parseOr,hp]
    simp only [hps,bind,Except.bind,pure,Except.pure,eat,if_true]
  | compare hop h =>
    rename_i col s negated op t us
    intro n hn
    obtain ⟨m,rfl⟩ : ∃ m, n = m+3 := ⟨n-3,by simp only [List.length_cons] at hn; omega⟩
    obtain ⟨v,hv⟩ := haccepted
    refine ⟨(negate negated (.leaf col op v,us)).1,?_,.compare hv⟩
    rw [parsePrimary_ident,parsePredicate_ident (by simp),parseColumn,parseComparison,parseLiteral,hv]
    simp only [hop,bind,Except.bind,pure,Except.pure,Except.map]
    rw [← negate_eq]
  | like h =>
    rename_i col negated t us
    intro n hn
    obtain ⟨m,rfl⟩ : ∃ m, n = m+3 := ⟨n-3,by simp only [List.length_cons] at hn; omega⟩
    obtain ⟨v,hv⟩ := haccepted
    refine ⟨(negate negated (.leaf col .like v,us)).1,?_,.like hv⟩
    rw [parsePrimary_ident,parsePredicate_ident (by simp),parseColumn,parseLike,parseLiteral,hv]
    simp only [bind,Except.bind,pure,Except.pure,Except.map]
    rw [← negate_eq]
  | between h h' =>
    rename_i col negated t t' us
    intro n hn
    obtain ⟨m,rfl⟩ : ∃ m, n = m+3 := ⟨n-3,by simp only [List.length_cons] at hn; omega⟩
    obtain ⟨⟨lo,hlo⟩,hi,hhi⟩ := haccepted
    refine ⟨(negate negated (.and [.leaf col .gte lo,.leaf col .lte hi],us)).1,?_,.between hlo hhi⟩
    rw [parsePrimary_ident,parsePredicate_ident (by simp),parseColumn,parseBetween,parseLiteral,hlo]
    simp only [parseLiteral,hhi,eat,if_true,bind,Except.bind,pure,Except.pure,Except.map]
    rw [← negate_eq]
  | isNull =>
    rename_i col negated us
    intro n hn
    obtain ⟨m,rfl⟩ : ∃ m, n = m+3 := ⟨n-3,by simp only [List.length_cons] at hn; omega⟩
    refine ⟨.isNull col !negated,?_,.isNull⟩
    change checkColumn schema col = .ok () at haccepted
    rw [parsePrimary_ident]
    change parsePredicate parseF64 schema (m+2) (.ident col :: optNot false (.is :: _)) = _
    rw [parsePredicate_ident (by simp),parseColumn,parseIs,eatNot_optNot (by simp)]
    simp only [eat,if_true,haccepted,bind,Except.bind,pure,Except.pure,Bool.false_eq_true,if_false]
  | inList h =>
    rename_i col negated ts us toks
    intro n hn
    obtain ⟨m,rfl⟩ : ∃ m, n = m+3 := ⟨n-3,by simp only [List.length_cons] at hn; omega⟩
    obtain ⟨t,ts',v,vs,rfl,hv,htail,hall⟩ := h.parse haccepted
    refine ⟨(negate negated (.or ((v :: vs).map (.leaf col .eq)),us)).1,?_,.inList hall⟩
    have hnot : (t :: ts').head? ≠ some .select := by
      rintro ⟨⟩
      cases hv
    rw [parsePrimary_ident,parsePredicate_ident (by simp),parseColumn]
    simp only [eat,if_true,bind,Except.bind,if_neg hnot]
    rw [parseList,parseLiteral,hv]
    simp only [htail,eat,if_true,bind,Except.bind,pure,Except.pure,Except.map]
    rw [← negate_eq]
  | inSelect =>
    rename_i col project raw negated us
    intro n hn
    obtain ⟨m,rfl⟩ : ∃ m, n = m+5 := ⟨n-5,by simp only [List.length_cons] at hn; omega⟩
    obtain ⟨table,htable⟩ := haccepted
    refine ⟨.inSubquery col negated table project none,?_,.inSelect htable⟩
    rw [parsePrimary_ident,parsePredicate_ident (by simp),parseColumn]
    simp only [eat,if_true,bind,Except.bind,List.head?_cons,List.tail_cons]
    rw [parseSelect]
    simp only [parseIdent,eat,if_true,htable,bind,Except.bind]
    rw [parseWhere_of_ne (by simp)]
    rfl
  | inSelectWhere h ih =>
    rename_i col project raw negated ts us w
    intro n hn
    simp only [List.length_cons,length_optNot] at hn
    obtain ⟨m,rfl⟩ : ∃ m, n = m+6 := ⟨n-6,by omega⟩
    obtain ⟨⟨table,htable⟩,haccepted⟩ := haccepted
    obtain ⟨p,ps,ms,hp,hps,hreads⟩ := ih haccepted (by simp [Stops]) m (by simp only [rank] at hn ⊢; omega)
    refine ⟨.inSubquery col negated table project (some (joined .or p ps)),?_,.inSelectWhere htable hreads⟩
    rw [parsePrimary_ident,parsePredicate_ident (by simp),parseColumn]
    simp only [eat,if_true,bind,Except.bind,List.head?_cons,List.tail_cons]
    rw [parseSelect]
    simp only [parseIdent,eat,if_true,htable,bind,Except.bind]
    rw [parseWhere,parseOr,hp]
    simp only [hps,bind,Except.bind,pure,Except.pure,if_true]
  | const ha' hb' =>
    rename_i a b s us
    intro n hn
    obtain ⟨m,rfl⟩ : ∃ m, n = m+3 := ⟨n-3,by simp only [List.length_cons] at hn; omega⟩
    obtain ⟨⟨v,ha⟩,w,hb⟩ := haccepted
    refine ⟨if evalConst v.json s w.json then .and [] else .or [],?_,.const ha hb⟩
    have hhead : (a :: Tok.op s :: b :: us).head? ≠ some .lparen := by
      rintro ⟨⟩
      cases ha
    rw [parsePrimary_of_ne hhead,parsePredicate,if_pos (literal_isConstant ha _),parseConst,parseLiteral,ha]
    simp only [parseLiteral,hb,bind,Except.bind,pure,Except.pure]

lemma parseLiteral_eq_ok {ts us : List Tok} {v : Literal} (h : parseLiteral parseF64 ts = .ok (v,us)) :
    ∃ t, ts = t :: us ∧ literal parseF64 t = .ok v := by
  cases ts with
  | nil => cases h
  | cons t ts =>
    rw [parseLiteral,bind_eq_ok] at h
    obtain ⟨w,hw,⟨⟩⟩ := h
    exact ⟨t,rfl,hw⟩

lemma parseIdent_eq_ok {ts us : List Tok} {s : String} (h : parseIdent ts = .ok (s,us)) : ts = .ident s :: us := by
  unfold parseIdent at h
  split at h <;> cases h
  rfl

lemma eat_eq_ok {t : Tok} {ts us : List Tok} (h : eat t ts = .ok us) : ts = t :: us := by
  unfold eat at h
  split at h
  · split at h <;> cases h
    next heq => rw [heq]
  · cases h

lemma literals_of_tail {ts us : List Tok} {vs : List Literal} (h : literalTail parseF64 ts = .ok (vs,us)) :
    ∀ {t}, Readable parseF64 t → ∃ toks, Literals (t :: ts) toks us ∧ ∀ t ∈ toks, Readable parseF64 t := by
  induction ts using literalTail.induct generalizing vs with
  | case1 t' ts ih =>
    rintro t ⟨v,hv⟩
    rw [literalTail,bind_eq_ok] at h
    obtain ⟨w,hw,h⟩ := h
    rw [bind_eq_ok] at h
    obtain ⟨⟨ws,ks⟩,hws,⟨⟩⟩ := h
    obtain ⟨toks,htoks,hread⟩ := ih hws ⟨w,hw⟩
    exact ⟨t :: toks,.more (literal_isConstant hv _) htoks,List.forall_mem_cons.mpr ⟨⟨v,hv⟩,hread⟩⟩
  | case2 => cases h
  | case3 ts h1 h2 =>
    rintro t ⟨v,hv⟩
    have hnil : literalTail parseF64 ts = .ok ([],ts) := by
      rw [literalTail] <;> assumption
    rw [hnil] at h
    cases h
    exact ⟨[t],.one (literal_isConstant hv _),by simpa using ⟨v,hv⟩⟩

/-- There is a derivation that the parser accepts. -/
def Derivable (parseF64 : String → Option OrderedFloat) (schema : Option TableSchema) (L : Level)
    (ts us : List Tok) : Prop := ∃ c, Derives L ts c us ∧ c.Accepted parseF64 schema

/-- What the parser reads with some fuel is derivable. -/
structure Sound (parseF64 : String → Option OrderedFloat) (schema : Option TableSchema) (n : ℕ) : Prop where
  or_ : ∀ {ts p us}, parseOr parseF64 schema n ts = .ok (p,us) → Derivable parseF64 schema .disjunction ts us
  orTail : ∀ {ts ms ps us}, Derivable parseF64 schema .conjunction ts ms →
    orTail parseF64 schema n ms = .ok (ps,us) → Derivable parseF64 schema .disjunction ts us
  and_ : ∀ {ts p us}, parseAnd parseF64 schema n ts = .ok (p,us) → Derivable parseF64 schema .conjunction ts us
  andTail : ∀ {ts ms ps us}, Derivable parseF64 schema .negation ts ms →
    andTail parseF64 schema n ms = .ok (ps,us) → Derivable parseF64 schema .conjunction ts us
  not_ : ∀ {ts p us}, parseNot parseF64 schema n ts = .ok (p,us) → Derivable parseF64 schema .negation ts us
  primary : ∀ {ts p us}, parsePrimary parseF64 schema n ts = .ok (p,us) → Derivable parseF64 schema .primary ts us
  predicate : ∀ {ts p us}, parsePredicate parseF64 schema n ts = .ok (p,us) →
    Derivable parseF64 schema .primary ts us
  column : ∀ {col negated ts p us}, parseColumn parseF64 schema n col negated ts = .ok (p,us) →
    Derivable parseF64 schema .primary (.ident col :: optNot negated ts) us
  select : ∀ {col negated ts p us}, parseSelect parseF64 schema n col negated ts = .ok (p,us) →
    Derivable parseF64 schema .primary (.ident col :: optNot negated (.in_ :: .lparen :: .select :: ts)) us
  where_ : ∀ {ts w us}, parseWhere parseF64 schema n ts = .ok (w,us) →
    ts = us ∨ ∃ ts', ts = .where_ :: ts' ∧ Derivable parseF64 schema .disjunction ts' us

lemma derivable_const {ts us : List Tok} {p : PredicateJson} (h : parseConst parseF64 ts = .ok (p,us)) :
    Derivable parseF64 schema .primary ts us := by
  rw [parseConst,bind_eq_ok] at h
  obtain ⟨⟨v,ms⟩,hv,h⟩ := h
  obtain ⟨a,rfl,ha⟩ := parseLiteral_eq_ok hv
  dsimp only at h
  split at h
  · rw [bind_eq_ok] at h
    obtain ⟨⟨w,ks⟩,hw,⟨⟩⟩ := h
    obtain ⟨b,rfl,hb⟩ := parseLiteral_eq_ok hw
    exact ⟨_,.const (literal_isConstant ha _) (literal_isConstant hb _),⟨v,ha⟩,w,hb⟩
  · cases h

lemma derivable_is {col : String} {negated : Bool} {ts us : List Tok} {p : PredicateJson}
    (h : parseIs schema col negated ts = .ok (p,us)) :
    Derivable parseF64 schema .primary (.ident col :: optNot negated (.is :: ts)) us := by
  rw [parseIs,bind_eq_ok] at h
  obtain ⟨ms,heat,h⟩ := h
  split at h
  · cases h
  · next hneg =>
    rw [bind_eq_ok] at h
    obtain ⟨⟨⟩,hcol,⟨⟩⟩ := h
    obtain rfl : negated = false := by simpa using hneg
    rw [← optNot_eatNot ts,eat_eq_ok heat]
    exact ⟨_,.isNull,hcol⟩

lemma derivable_comparison {col s : String} {negated : Bool} {ts us : List Tok} {p : PredicateJson}
    (h : parseComparison parseF64 col s ts = .ok (p,us)) :
    Derivable parseF64 schema .primary (.ident col :: optNot negated (.op s :: ts)) us := by
  rw [parseComparison,bind_eq_ok] at h
  obtain ⟨⟨v,ms⟩,hv,h⟩ := h
  obtain ⟨t,rfl,ht⟩ := parseLiteral_eq_ok hv
  dsimp only at h
  split at h
  · next op hop =>
    cases h
    exact ⟨_,.compare hop (literal_isConstant ht _),v,ht⟩
  · cases h

lemma derivable_like {col : String} {negated : Bool} {ts us : List Tok} {p : PredicateJson}
    (h : parseLike parseF64 col ts = .ok (p,us)) :
    Derivable parseF64 schema .primary (.ident col :: optNot negated (.like :: ts)) us := by
  rw [parseLike,bind_eq_ok] at h
  obtain ⟨⟨v,ms⟩,hv,⟨⟩⟩ := h
  obtain ⟨t,rfl,ht⟩ := parseLiteral_eq_ok hv
  exact ⟨_,.like (literal_isConstant ht _),v,ht⟩

lemma derivable_between {col : String} {negated : Bool} {ts us : List Tok} {p : PredicateJson}
    (h : parseBetween parseF64 col ts = .ok (p,us)) :
    Derivable parseF64 schema .primary (.ident col :: optNot negated (.between :: ts)) us := by
  rw [parseBetween,bind_eq_ok] at h
  obtain ⟨⟨lo,ms⟩,hlo,h⟩ := h
  obtain ⟨t,rfl,ht⟩ := parseLiteral_eq_ok hlo
  rw [bind_eq_ok] at h
  obtain ⟨ks,heat,h⟩ := h
  obtain rfl := eat_eq_ok heat
  rw [bind_eq_ok] at h
  obtain ⟨⟨hi,ls⟩,hhi,⟨⟩⟩ := h
  obtain ⟨t',rfl,ht'⟩ := parseLiteral_eq_ok hhi
  exact ⟨_,.between (literal_isConstant ht _) (literal_isConstant ht' _),⟨lo,ht⟩,hi,ht'⟩

lemma derivable_list {col : String} {negated : Bool} {ts us : List Tok} {p : PredicateJson}
    (h : parseList parseF64 col ts = .ok (p,us)) :
    Derivable parseF64 schema .primary (.ident col :: optNot negated (.in_ :: .lparen :: ts)) us := by
  rw [parseList,bind_eq_ok] at h
  obtain ⟨⟨v,ms⟩,hv,h⟩ := h
  obtain ⟨t,rfl,ht⟩ := parseLiteral_eq_ok hv
  rw [bind_eq_ok] at h
  obtain ⟨⟨vs,ks⟩,hvs,h⟩ := h
  rw [bind_eq_ok] at h
  obtain ⟨ls,heat,⟨⟩⟩ := h
  obtain rfl := eat_eq_ok heat
  obtain ⟨toks,htoks,hread⟩ := literals_of_tail hvs ⟨v,ht⟩
  exact ⟨_,.inList htoks,hread⟩

/-- The NOT after the column is put around what was read. -/
lemma map_negate_eq_ok {x : Except WhereError (PredicateJson × List Tok)} {negated : Bool} {p : PredicateJson}
    {us : List Tok} (h : x.map (negate negated) = .ok (p,us)) : ∃ q, x = .ok (q,us) := by
  cases x with
  | error e => cases h
  | ok r =>
    obtain ⟨q,ms⟩ := r
    have hneg := Except.ok.inj h
    rw [negate_eq] at hneg
    cases hneg
    exact ⟨q,rfl⟩

/-- What the parser reads, the grammar derives. -/
theorem sound (n : ℕ) : Sound parseF64 schema n := by
  induction n with
  | zero =>
    constructor
    all_goals
      intros
      rename_i h
      cases h
  | succ n ih =>
    refine ⟨?_,?_,?_,?_,?_,?_,?_,?_,?_,?_⟩
    · intro ts p us h
      rw [parseOr,bind_eq_ok] at h
      obtain ⟨⟨q,ms⟩,hq,h⟩ := h
      rw [bind_eq_ok] at h
      obtain ⟨⟨qs,ks⟩,hqs,⟨⟩⟩ := h
      exact ih.orTail (ih.and_ hq) hqs
    · rintro ts ms ps us ⟨c,hc,haccepted⟩ h
      by_cases hor : ms.head? = some .or
      · obtain ⟨ms,rfl⟩ := List.head?_eq_some_iff.mp hor
        rw [orTail,bind_eq_ok] at h
        obtain ⟨⟨q,ks⟩,hq,h⟩ := h
        rw [bind_eq_ok] at h
        obtain ⟨⟨qs,ls⟩,hqs,⟨⟩⟩ := h
        obtain ⟨d,hd,haccepted'⟩ := ih.orTail (ih.and_ hq) hqs
        exact ⟨_,.orMore hc hd,haccepted,haccepted'⟩
      · rw [orTail_of_ne hor] at h
        cases h
        exact ⟨c,.orOne hc,haccepted⟩
    · intro ts p us h
      rw [parseAnd,bind_eq_ok] at h
      obtain ⟨⟨q,ms⟩,hq,h⟩ := h
      rw [bind_eq_ok] at h
      obtain ⟨⟨qs,ks⟩,hqs,⟨⟩⟩ := h
      exact ih.andTail (ih.not_ hq) hqs
    · rintro ts ms ps us ⟨c,hc,haccepted⟩ h
      by_cases hand : ms.head? = some .and
      · obtain ⟨ms,rfl⟩ := List.head?_eq_some_iff.mp hand
        rw [andTail,bind_eq_ok] at h
        obtain ⟨⟨q,ks⟩,hq,h⟩ := h
        rw [bind_eq_ok] at h
        obtain ⟨⟨qs,ls⟩,hqs,⟨⟩⟩ := h
        obtain ⟨d,hd,haccepted'⟩ := ih.andTail (ih.not_ hq) hqs
        exact ⟨_,.andMore hc hd,haccepted,haccepted'⟩
      · rw [andTail_of_ne hand] at h
        cases h
        exact ⟨c,.andOne hc,haccepted⟩
    · intro ts p us h
      by_cases hnot : ts.head? = some .not
      · obtain ⟨ts,rfl⟩ := List.head?_eq_some_iff.mp hnot
        rw [parseNot,bind_eq_ok] at h
        obtain ⟨⟨q,ms⟩,hq,⟨⟩⟩ := h
        obtain ⟨c,hc,haccepted⟩ := ih.not_ hq
        exact ⟨_,.notMore hc,haccepted⟩
      · rw [parseNot_of_ne hnot] at h
        obtain ⟨c,hc,haccepted⟩ := ih.primary h
        exact ⟨c,.notOne hc,haccepted⟩
    · intro ts p us h
      by_cases hparen : ts.head? = some .lparen
      · obtain ⟨ts,rfl⟩ := List.head?_eq_some_iff.mp hparen
        rw [parsePrimary,bind_eq_ok] at h
        obtain ⟨⟨q,ms⟩,hq,h⟩ := h
        rw [bind_eq_ok] at h
        obtain ⟨ks,heat,⟨⟩⟩ := h
        obtain rfl := eat_eq_ok heat
        obtain ⟨c,hc,haccepted⟩ := ih.or_ hq
        exact ⟨c,.paren hc,haccepted⟩
      · rw [parsePrimary_of_ne hparen] at h
        exact ih.predicate h
    · intro ts p us h
      rw [parsePredicate] at h
      split at h
      · exact derivable_const h
      · rw [bind_eq_ok] at h
        obtain ⟨⟨col,ms⟩,hcol,h⟩ := h
        obtain rfl := parseIdent_eq_ok hcol
        rw [← optNot_eatNot ms]
        exact ih.column h
    · intro col negated ts p us h
      unfold parseColumn at h
      split at h
      · cases h
      · exact derivable_is h
      · obtain ⟨q,hq⟩ := map_negate_eq_ok h
        exact derivable_comparison hq
      · obtain ⟨q,hq⟩ := map_negate_eq_ok h
        exact derivable_like hq
      · obtain ⟨q,hq⟩ := map_negate_eq_ok h
        exact derivable_between hq
      · rename_i m hfuel
        obtain rfl := Nat.succ.inj hfuel
        rw [bind_eq_ok] at h
        obtain ⟨ms,heat,h⟩ := h
        obtain rfl := eat_eq_ok heat
        split at h
        · next hselect =>
          obtain ⟨ks,rfl⟩ := List.head?_eq_some_iff.mp hselect
          exact ih.select h
        · obtain ⟨q,hq⟩ := map_negate_eq_ok h
          exact derivable_list hq
      · cases h
    · intro col negated ts p us h
      rw [parseSelect,bind_eq_ok] at h
      obtain ⟨⟨project,ms⟩,hproject,h⟩ := h
      obtain rfl := parseIdent_eq_ok hproject
      rw [bind_eq_ok] at h
      obtain ⟨ks,hfrom,h⟩ := h
      obtain rfl := eat_eq_ok hfrom
      rw [bind_eq_ok] at h
      obtain ⟨⟨raw,ls⟩,hraw,h⟩ := h
      obtain rfl := parseIdent_eq_ok hraw
      rw [bind_eq_ok] at h
      obtain ⟨table,htable,h⟩ := h
      rw [bind_eq_ok] at h
      obtain ⟨⟨w,rs⟩,hw,h⟩ := h
      rw [bind_eq_ok] at h
      obtain ⟨ts,hclose,⟨⟩⟩ := h
      obtain rfl := eat_eq_ok hclose
      rcases ih.where_ hw with rfl | ⟨ts',rfl,c,hc,haccepted⟩
      · exact ⟨_,.inSelect,table,htable⟩
      · exact ⟨_,.inSelectWhere hc,⟨table,htable⟩,haccepted⟩
    · intro ts w us h
      by_cases hwhere : ts.head? = some .where_
      · obtain ⟨ts,rfl⟩ := List.head?_eq_some_iff.mp hwhere
        rw [parseWhere,bind_eq_ok] at h
        obtain ⟨⟨q,ms⟩,hq,⟨⟩⟩ := h
        exact .inr ⟨ts,rfl,ih.or_ hq⟩
      · rw [parseWhere_of_ne hwhere] at h
        cases h
        exact .inl rfl

lemma Literals.unique {ts us us' toks toks' : List Tok} (h : Literals ts toks (.rparen :: us))
    (h' : Literals ts toks' (.rparen :: us')) : toks = toks' ∧ us = us' := by
  generalize hrest : Tok.rparen :: us = rest at h
  induction h generalizing toks' with
  | one _ =>
    subst hrest
    cases h' with
    | one _ => exact ⟨rfl,rfl⟩
  | more _ _ ih =>
    cases h' with
    | more _ h' =>
      obtain ⟨rfl,rfl⟩ := ih h' hrest
      exact ⟨rfl,rfl⟩

/-- The column, its NOT and what comes after them. -/
def view : List Tok → Option (String × Bool × List Tok)
  | .ident col :: ts => some (col,eatNot ts)
  | _ => none

/-- The derivations of a predicate on a column, by what stands after it. -/
inductive Column : String → Bool → List Tok → Clause → List Tok → Prop
  | compare {col s : String} {negated : Bool} {op : LeafOp} {t : Tok} {us : List Tok} (hop : leafOp s = some op) :
    Column col negated (.op s :: t :: us) (.compare col negated op t) us
  | like {col : String} {negated : Bool} {t : Tok} {us : List Tok} :
    Column col negated (.like :: t :: us) (.like col negated t) us
  | between {col : String} {negated : Bool} {t t' : Tok} {us : List Tok} :
    Column col negated (.between :: t :: .and :: t' :: us) (.between col negated t t') us
  | isNull {col : String} {negated : Bool} {ts us : List Tok} (h : eatNot ts = (negated,.null :: us)) :
    Column col false (.is :: ts) (.isNull col negated) us
  | inList {col : String} {negated : Bool} {ts us vs : List Tok} (h : Literals ts vs (.rparen :: us)) :
    Column col negated (.in_ :: .lparen :: ts) (.inList col negated vs) us
  | inSelect {col project raw : String} {negated : Bool} {us : List Tok} : Column col negated
      (.in_ :: .lparen :: .select :: .ident project :: .from_ :: .ident raw :: .rparen :: us)
      (.inSelect col negated raw project) us
  | inSelectWhere {col project raw : String} {negated : Bool} {ts us : List Tok} {w : Clause}
    (h : Derives .disjunction ts w (.rparen :: us)) : Column col negated
      (.in_ :: .lparen :: .select :: .ident project :: .from_ :: .ident raw :: .where_ :: ts)
      (.inSelectWhere col negated raw project w) us

lemma view_optNot {col : String} {negated : Bool} {t : Tok} {ts : List Tok} (ht : t ≠ .not) :
    view (.ident col :: optNot negated (t :: ts)) = some (col,negated,t :: ts) := by
  rw [view,eatNot_optNot ht]

lemma Derives.column {ts us ks : List Tok} {c : Clause} {col : String} {negated : Bool}
    (h : Derives .primary ts c us) (hview : view ts = some (col,negated,ks)) :
    Column col negated ks c us := by
  cases h with
  | paren _ => cases hview
  | const ha _ =>
    rename_i a _ _ _
    cases a <;> first | (cases hview; done) | cases ha
  | isNull =>
    obtain ⟨⟩ := hview
    exact .isNull (eatNot_optNot (by simp))
  | compare hop _ =>
    rw [view_optNot (by simp)] at hview
    cases hview
    exact .compare hop
  | like _ =>
    rw [view_optNot (by simp)] at hview
    cases hview
    exact .like
  | between _ _ =>
    rw [view_optNot (by simp)] at hview
    cases hview
    exact .between
  | inList h =>
    rw [view_optNot (by simp)] at hview
    cases hview
    exact .inList h
  | inSelect =>
    rw [view_optNot (by simp)] at hview
    cases hview
    exact .inSelect
  | inSelectWhere h =>
    rw [view_optNot (by simp)] at hview
    cases hview
    exact .inSelectWhere h

/-- No sequence of tokens is read in two ways. -/
theorem Derives.unique {L : Level} {ts us : List Tok} {c : Clause} (h : Derives L ts c us) :
    ∀ {c' us'}, Derives L ts c' us' → Stops L us → Stops L us' → c = c' ∧ us = us' := by
  induction h with
  | orOne h ih =>
    intro c' us' h' hs hs'
    cases h' with
    | orOne h' => exact ih h' hs.2 hs'.2
    | orMore h' _ =>
      obtain ⟨-,rfl⟩ := ih h' hs.2 (by simp [Stops])
      exact absurd rfl hs.1
  | orMore h _ ih ih' =>
    intro c' us' h' hs hs'
    cases h' with
    | orOne h' =>
      obtain ⟨-,rfl⟩ := ih h' (by simp [Stops]) hs'.2
      exact absurd rfl hs'.1
    | orMore h' h'' =>
      obtain ⟨rfl,heq⟩ := ih h' (by simp [Stops]) (by simp [Stops])
      obtain rfl := (List.cons.inj heq).2
      obtain ⟨rfl,rfl⟩ := ih' h'' hs hs'
      exact ⟨rfl,rfl⟩
  | andOne h ih =>
    intro c' us' h' hs hs'
    cases h' with
    | andOne h' => exact ih h' trivial trivial
    | andMore h' _ =>
      obtain ⟨-,rfl⟩ := ih h' trivial trivial
      exact absurd rfl hs
  | andMore h _ ih ih' =>
    intro c' us' h' hs hs'
    cases h' with
    | andOne h' =>
      obtain ⟨-,rfl⟩ := ih h' trivial trivial
      exact absurd rfl hs'
    | andMore h' h'' =>
      obtain ⟨rfl,heq⟩ := ih h' trivial trivial
      obtain rfl := (List.cons.inj heq).2
      obtain ⟨rfl,rfl⟩ := ih' h'' hs hs'
      exact ⟨rfl,rfl⟩
  | notOne h ih =>
    intro c' us' h' _ _
    cases h' with
    | notOne h' => exact ih h' trivial trivial
    | notMore _ => exact absurd rfl h.head_primary
  | notMore h ih =>
    intro c' us' h' _ _
    cases h' with
    | notOne h' => exact absurd rfl h'.head_primary
    | notMore h' =>
      obtain ⟨rfl,rfl⟩ := ih h' trivial trivial
      exact ⟨rfl,rfl⟩
  | paren h ih =>
    intro c' us' h' _ _
    cases h' with
    | paren h' =>
      obtain ⟨rfl,heq⟩ := ih h' (by simp [Stops]) (by simp [Stops])
      exact ⟨rfl,(List.cons.inj heq).2⟩
    | const ha _ => cases ha
  | const ha hb =>
    rename_i a _ _ _
    intro c' us' h' _ _
    cases a <;> first
    | (cases ha; done)
    | (cases h'
       exact ⟨rfl,rfl⟩)
  | compare hop _ =>
    intro c' us' h' _ _
    cases h'.column (view_optNot (by simp)) with
    | compare hop' =>
      cases hop.symm.trans hop'
      exact ⟨rfl,rfl⟩
  | like _ =>
    intro c' us' h' _ _
    cases h'.column (view_optNot (by simp)) with
    | like => exact ⟨rfl,rfl⟩
  | between _ _ =>
    intro c' us' h' _ _
    cases h'.column (view_optNot (by simp)) with
    | between => exact ⟨rfl,rfl⟩
  | isNull =>
    intro c' us' h' _ _
    cases h'.column rfl with
    | isNull heat =>
      rw [eatNot_optNot (by simp)] at heat
      cases heat
      exact ⟨rfl,rfl⟩
  | inList hvs =>
    intro c' us' h' _ _
    cases h'.column (view_optNot (by simp)) with
    | inList hvs' =>
      obtain ⟨rfl,rfl⟩ := hvs.unique hvs'
      exact ⟨rfl,rfl⟩
    | inSelect => cases hvs
    | inSelectWhere _ => cases hvs
  | inSelect =>
    intro c' us' h' _ _
    cases h'.column (view_optNot (by simp)) with
    | inSelect => exact ⟨rfl,rfl⟩
    | inList hvs => cases hvs
  | inSelectWhere h ih =>
    intro c' us' h' _ _
    cases h'.column (view_optNot (by simp)) with
    | inSelectWhere h' =>
      obtain ⟨rfl,heq⟩ := ih h' (by simp [Stops]) (by simp [Stops])
      exact ⟨rfl,(List.cons.inj heq).2⟩
    | inList hvs => cases hvs

end WhereSql
end ElectricCircuits
