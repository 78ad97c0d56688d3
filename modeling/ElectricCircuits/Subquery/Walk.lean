import ElectricCircuits.Lib.LateReads
import ElectricCircuits.Subquery.Leaves
import ElectricCircuits.Subquery.Versions

/-! A view of a table under inner sets that change: the changes of the table come in one after the other, the sets
leave flips to walk, and the walks read rows back from the database and hand them in later. -/
namespace ElectricCircuits

/-- What is queued for a view: a flip of a node, or rows to read back. -/
inductive Work where
  | flip (sig : SubquerySig) (value : Value)
  | requery (q : Requery)

namespace Work

/-- The reads that a walk makes for a piece of work: a flip asks along each edge of its node. -/
def requeries (pred : CompiledPredicate) : Work → List Requery
  | flip sig value => (pred.collectInLeaves.filter (·.sig == sig)).filterMap (·.requery value)
  | requery q => [q]

def asks (pred : CompiledPredicate) (equals : ColumnEquality) (w : Work) (row : Row) : Bool :=
  (w.requeries pred).any (·.selects equals row)

variable {pred : CompiledPredicate} {equals : ColumnEquality} {r : Row}

@[simp] lemma asks_requery (q : Requery) : (Work.requery q).asks pred equals r = q.selects equals r := by
  simp [asks,requeries]

/-- A flip asks for the rows that are read back for it. -/
lemma asks_flip (sig : SubquerySig) (v : Value) :
    (flip sig v).asks pred equals r = pred.readsBack equals r sig v := by
  rw [Bool.eq_iff_iff]
  simp only [asks,requeries,CompiledPredicate.readsBack,List.any_eq_true,List.mem_filterMap,List.mem_filter,
    beq_iff_eq,Bool.and_eq_true,decide_eq_true_eq]
  constructor
  · rintro ⟨q,⟨l,⟨hl,hsig⟩,hq⟩,hr⟩
    exact ⟨l,hl,hsig,by rw [hq]; exact hr⟩
  · rintro ⟨l,hl,hsig,hr⟩
    obtain ⟨q,hq,hr⟩ := Option.any_eq_true _ _ |>.mp hr
    exact ⟨q,⟨l,⟨hl,hsig⟩,hq⟩,hr⟩

/-- A piece of work asks for what its reads ask for. -/
lemma asks_of_requeries {x : Work} {q : Requery} (hq : q ∈ x.requeries pred) (hr : q.selects equals r = true) :
    x.asks pred equals r = true := List.any_eq_true.mpr ⟨q,hq,hr⟩

/-- What the work asks for is asked for by the other work. -/
def Covers (pred : CompiledPredicate) (equals : ColumnEquality) (work work' : List Work) : Prop :=
  ∀ x ∈ work, ∀ r, x.asks pred equals r = true → ∃ y ∈ work', y.asks pred equals r = true

lemma covers_append (work work' : List Work) : Covers pred equals work (work ++ work') :=
  fun x hx _ hr => ⟨x,List.mem_append_left _ hx,hr⟩

end Work

/-- A piece of work under way: the reads still to be made, and the first of them once it is begun, with its rows
and its snapshot once it is made. -/
structure FlipWalk where
  work : Work
  queries : List Requery
  read : Option (Option (List Row × SnapshotGate))

namespace FlipWalk

/-- The reads that are not begun. -/
def pending (v : FlipWalk) : List Requery :=
  match v.read with
  | none => v.queries
  | some _ => v.queries.tail

/-- The read that is begun, with the rows that it returned. -/
def reading (v : FlipWalk) : Option (Requery × Option (List Row × SnapshotGate)) :=
  match v.read,v.queries with
  | some r,q :: _ => some (q,r)
  | _,_ => none

section
variable {vs vs' : List FlipWalk} {x : Work} {q : Requery} {qs : List Requery}
  {r : Option (List Row × SnapshotGate)}

lemma reading_begun : ((vs ++ ⟨x,q :: qs,some r⟩ :: vs').filterMap reading).length =
    ((vs ++ vs').filterMap reading).length+1 := by
  simp [reading,Nat.add_assoc]

lemma reading_idle : (vs ++ ⟨x,qs,none⟩ :: vs').filterMap reading = (vs ++ vs').filterMap reading := by
  simp [List.filterMap_cons,reading]

end

end FlipWalk

/-- Every change of a set is among the flips. -/
def Flips (sets sets' : NodeSets) (work : List Work) : Prop :=
  ∀ sig v, sets sig v ≠ sets' sig v → ∃ w, v.eqv w = true ∧ Work.flip sig w ∈ work

lemma Flips.refl (sets : NodeSets) (work : List Work) : Flips sets sets work := fun _ _ h => absurd rfl h

/-- A table over a run, and a view of it: the snapshot that filled it, the rows that it is for, and what it shows
of one. The table's columns are compared by Postgres. -/
structure Site (β : Type) where
  ts : TableSchema
  equals : ColumnEquality
  base : String → Option Row
  log : List RowEvent
  gate : SnapshotGate
  pred : CompiledPredicate
  image : Row → β

/-- Where a run is: the sets, the work, and for each key the commit of the last decision that is recorded and
what is shown. -/
structure World (β : Type) where
  committed : ℕ
  processed : ℕ
  sets : NodeSets
  work : List Work
  walks : List FlipWalk
  recent : String → Option CommitStamp
  shown : String → Option β

/-- The reads under way. -/
def World.inflight {β : Type} (w : World β) : ℕ := (w.walks.filterMap FlipWalk.reading).length

/-- A row that was read is current unless a commit that the read did not see was decided meanwhile. -/
def SnapshotGate.keeps (gate : SnapshotGate) (recent : Option CommitStamp) : Bool :=
  match recent with
  | some stamp => gate.shouldSkip stamp.1 stamp.2
  | none => true

lemma EmissionSource.keeps_queryBack (gate : SnapshotGate) (recent : Option CommitStamp) :
    (EmissionSource.queryBack gate).keeps recent = gate.keeps recent := by cases recent <;> rfl

namespace Site
variable {β : Type} (S : Site β)

def view (sets : NodeSets) (r : Row) : Option β :=
  if S.pred.matchesCtx r sets.eval then some (S.image r) else none

/-- What the database promises of a table: rows stand under their keys, and each change fits the rows there. -/
structure Valid : Prop where
  base : ∀ k r, S.base k = some r → S.ts.IsRow r ∧ S.ts.name r = k
  log : ∀ pre e post, S.log = pre ++ e :: post → e.Fits S.ts fun k => rowAt S.ts S.base k pre

/-- Commits that a snapshot sees, as far as one row goes: those before one that it sees. -/
def Closed (saw : RowEvent → Bool) : Prop := S.log.Pairwise fun d e => ∀ k,
  d.write S.ts k ≠ none → e.write S.ts k ≠ none → saw e = true → saw d = true

/-- The gate says of each commit of the run whether its snapshot saw it, as it does while the transaction ids stay
within 2^32 of the snapshot's own. -/
def Tells (gate : SnapshotGate) (saw : RowEvent → Bool) : Prop := ∀ e ∈ S.log, gate.sees e = saw e

/-- The snapshot of a read that is made now: it sees what was processed and what the backfill saw, and nothing
that is not committed yet. -/
structure Snapshot (processed committed : ℕ) (saw : RowEvent → Bool) : Prop where
  past : ∀ e ∈ S.log.take processed, saw e = true
  seed : ∀ e ∈ S.log, S.gate.sees e = true → saw e = true
  future : ∀ e ∈ S.log.drop committed, saw e = false
  closed : S.Closed saw

/-- The rows that a read returns: rows of the table as the snapshot sees it, and among them those for which the column's
equality holds. -/
structure Reads (q : Requery) (saw : RowEvent → Bool) (rows : List Row) : Prop where
  row : ∀ r ∈ rows, rowAt S.ts S.base (S.ts.name r) (S.log.filter saw) = some r
  found : ∀ r, rowAt S.ts S.base (S.ts.name r) (S.log.filter saw) = some r → q.selects S.equals r = true → r ∈ rows
  nodup : (rows.map S.ts.name).Nodup

/-- The rows of a read under their keys, each shown as the sets stand, but for those decided meanwhile. -/
def landed (w : World β) (rows : List Row) (gate : SnapshotGate) (k : String) : Option β :=
  match (candidateAt S.ts (rows.map (·,true)) k).filter fun _ => gate.keeps (w.recent k) with
  | some c => S.view w.sets c.1
  | none => w.shown k

/-- The rows that a change writes, each shown as the sets stand. -/
def written (w : World β) (e : RowEvent) (k : String) : Option β :=
  match e.write S.ts k with
  | some r => r.bind (S.view w.sets)
  | none => w.shown k

/-- The last read to end forgets the decisions. -/
def closing (walks : List FlipWalk) (recent : String → Option CommitStamp) (k : String) : Option CommitStamp :=
  if (walks.filterMap FlipWalk.reading).length = 0 then none else recent k

inductive Step : World β → World β → Prop
  | commit (w : World β) (h : w.committed < S.log.length) : Step w { w with committed := w.committed+1 }
  | decide (w : World β) (e : RowEvent) (hlt : w.processed < w.committed) (he : S.log[w.processed]? = some e)
    (hsees : S.gate.sees e = false) : Step w { w with
      processed := w.processed+1
      recent := fun k => if 0 < w.inflight ∧ e.write S.ts k ≠ none then some e.stamp else w.recent k
      shown := S.written w e }
  | pass (w : World β) (e : RowEvent) (hlt : w.processed < w.committed) (he : S.log[w.processed]? = some e)
    (h : S.gate.sees e = true ∨ ∀ r, e.change.old = some r ∨ e.change.new = some r → ∀ sets, S.view sets r = none) :
    Step w { w with processed := w.processed+1 }
  | turn (w : World β) (sets : NodeSets) (work : List Work) (hkept : Work.Covers S.pred S.equals w.work work)
    (hflips : Flips w.sets sets work) : Step w { w with sets := sets, work := work }
  | take (w : World β) (x : Work) (ws ws' : List Work) (h : w.work = ws ++ x :: ws') :
    Step w { w with work := ws ++ ws', walks := w.walks ++ [⟨x,x.requeries S.pred,none⟩] }
  | begin (w : World β) (x : Work) (q : Requery) (qs : List Requery) (vs vs' : List FlipWalk)
    (h : w.walks = vs ++ ⟨x,q :: qs,none⟩ :: vs') :
    Step w { w with walks := vs ++ ⟨x,q :: qs,some none⟩ :: vs' }
  | read (w : World β) (x : Work) (q : Requery) (qs : List Requery) (vs vs' : List FlipWalk) (rows : List Row)
    (gate : SnapshotGate) (saw : RowEvent → Bool) (h : w.walks = vs ++ ⟨x,q :: qs,some none⟩ :: vs')
    (hgate : S.Tells gate saw) (hsaw : S.Snapshot w.processed w.committed saw) (hrows : S.Reads q saw rows) :
    Step w { w with walks := vs ++ ⟨x,q :: qs,some (some (rows,gate))⟩ :: vs' }
  | fail (w : World β) (x : Work) (q : Requery) (qs : List Requery) (vs vs' : List FlipWalk)
    (h : w.walks = vs ++ ⟨x,q :: qs,some none⟩ :: vs') : Step w { w with
      work := x :: w.work
      walks := vs ++ vs'
      recent := closing (vs ++ vs') w.recent }
  | land (w : World β) (x : Work) (q : Requery) (qs : List Requery) (vs vs' : List FlipWalk) (rows : List Row)
    (gate : SnapshotGate) (h : w.walks = vs ++ ⟨x,q :: qs,some (some (rows,gate))⟩ :: vs') : Step w { w with
      walks := vs ++ ⟨x,qs,none⟩ :: vs'
      recent := closing (vs ++ ⟨x,qs,none⟩ :: vs') w.recent
      shown := S.landed w rows gate }
  | done (w : World β) (x : Work) (vs vs' : List FlipWalk) (h : w.walks = vs ++ ⟨x,[],none⟩ :: vs') :
    Step w { w with walks := vs ++ vs' }

section
variable {S} {w : World β} {e : RowEvent} {cur : String → Option Row}

/-- What a candidate shows. -/
def judge (S : Site β) (sets : NodeSets) (c : Row × Bool) : Option β :=
  if member sets.eval S.pred c then some (S.image c.1) else none

/-- What the rows of a change come to as candidates. -/
lemma shownAfter_live (h : e.Fits S.ts cur) : shownAfter S.ts (S.judge w.sets) (.live e.stamp)
    (latestRowsByPk S.ts e.delta).values w.recent w.shown = S.written w e := by
  funext k
  obtain ⟨hnone,hrow,hgone⟩ := h.at_key (k := k)
  rw [shownAfter,written]
  cases hw : e.write S.ts k with
  | none =>
    rw [hnone hw]
    rfl
  | some r =>
    cases r with
    | some n =>
      rw [hrow n hw]
      rfl
    | none =>
      obtain ⟨o,ho⟩ := hgone hw
      rw [ho]
      rfl

lemma recentAfter_live (h : e.Fits S.ts cur) (inflight : ℕ) (recent : String → Option CommitStamp) :
    recentAfter S.ts inflight (.live e.stamp) (latestRowsByPk S.ts e.delta).values recent =
      fun k => if 0 < inflight ∧ e.write S.ts k ≠ none then some e.stamp else recent k := by
  funext k
  obtain ⟨hnone,hrow,hgone⟩ := h.at_key (k := k)
  rw [recentAfter]
  cases hw : e.write S.ts k with
  | none => simp [hnone hw]
  | some r =>
    have hsome : (candidateAt S.ts (latestRowsByPk S.ts e.delta).values k).isSome = true := by
      cases r with
      | some n => rw [hrow n hw]; rfl
      | none =>
        obtain ⟨o,ho⟩ := hgone hw
        rw [ho]
        rfl
    simp [hsome,EmissionSource.liveStamp]

/-- What the rows of a read come to as candidates. -/
lemma shownAfter_queryBack (rows : List Row) (gate : SnapshotGate) : shownAfter S.ts (S.judge w.sets)
    (.queryBack gate) (rows.map (·,true)) w.recent w.shown = S.landed w rows gate := by
  funext k
  rw [shownAfter,landed]
  simp only [EmissionSource.keeps_queryBack]
  cases hc : (candidateAt S.ts (rows.map (·,true)) k).filter fun _ => gate.keeps (w.recent k) with
  | none => rfl
  | some c =>
    -- a row that was read still exists
    obtain ⟨hc,-⟩ := Option.filter_eq_some_iff.mp hc
    obtain ⟨r,-,rfl⟩ := List.mem_map.mp (List.mem_of_find?_eq_some hc)
    rfl

end

end Site
end ElectricCircuits
