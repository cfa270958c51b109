import Mathlib.Algebra.GroupWithZero.Nat
import Mathlib.Data.Nat.Find
import PluggableHcs.Lib.Runs
import PluggableHcs.Txmgmt.RwSet

namespace PluggableHcs.Txvalidator
open Runs Txmgmt
open List hiding keys

structure LedgerKeyID where
  cc : Bytes
  coll : Bytes
  key : Bytes
deriving DecidableEq

/-- The keys ExtractValidationParameterDependency adds a dependency for. -/
def metadataKeys (rwset : TxRwSet) : List LedgerKeyID :=
  rwset.nsRwSets.flatMap fun rws =>
    rws.kvRwSet.metadataWrites.map (fun mw => ⟨rws.nameSpace,[],mw.key⟩) ++
    rws.collHashedRwSets.flatMap fun cw =>
      cw.hashedRwSet.metadataWrites.map fun mw => ⟨rws.nameSpace,cw.collectionName,mw.keyHash⟩

/-- The keys Evaluate calls checkSBAndCCEP with, in its order. -/
def evaluatedKeys (rwset : TxRwSet) (ns : Bytes) : List LedgerKeyID :=
  (rwset.nsRwSets.filter fun rws => rws.nameSpace = ns).flatMap fun rws =>
    rws.kvRwSet.writes.map (fun w => ⟨ns,[],w.key⟩) ++
    rws.kvRwSet.metadataWrites.map (fun mw => ⟨ns,[],mw.key⟩) ++
    (rws.collHashedRwSets.flatMap fun cw =>
      cw.hashedRwSet.hashedWrites.map fun w => ⟨ns,cw.collectionName,w.keyHash⟩) ++
    rws.collHashedRwSets.flatMap fun cw =>
      cw.hashedRwSet.metadataWrites.map fun mw => ⟨ns,cw.collectionName,mw.keyHash⟩

def txWritesToNamespace (ns : NsRwSet) : Bool :=
  !ns.kvRwSet.writes.isEmpty ||
  (ns.collHashedRwSets.any fun c =>
    !c.hashedRwSet.hashedWrites.isEmpty || !c.hashedRwSet.metadataWrites.isEmpty) ||
  !ns.kvRwSet.metadataWrites.isEmpty

def wrNamespace (ccID : Bytes) (rwset : TxRwSet) : List Bytes :=
  ((rwset.nsRwSets.filter txWritesToNamespace).map NsRwSet.nameSpace).insert ccID

structure BlockTx where
  /-- What extractDependenciesForTx decodes: nothing, when it returns early, or a read/write set,
  which may itself be broken. -/
  results : Option (Option TxRwSet)
  /-- It passes the checks of validateTx and Dispatch other than those on the read/write set. -/
  accepted : Bool
  ccID : Bytes
  /-- Whether GetInfoForValidate finds the plugin and the policy of a namespace. -/
  infoFound : Bytes → Bool
  /-- Whether the endorsements satisfy what holds for a key once its parameter may be read. -/
  keyPolicy : LedgerKeyID → Bool
  /-- The outcome of CheckCCEPIfNoEPChecked. -/
  chaincodePolicy : Bytes → Bool

open BlockTx

def BlockTx.metadata (tx : BlockTx) : List LedgerKeyID :=
  match tx.results with
  | some (some rwset) => metadataKeys rwset
  | _ => []

def BlockTx.dispatched (tx : BlockTx) : List Bytes :=
  match tx.results with
  | some (some rwset) =>
    if tx.accepted ∧ (rwset.nsRwSets.map NsRwSet.nameSpace).Nodup then wrNamespace tx.ccID rwset
    else []
  | _ => []

def BlockTx.evaluated (tx : BlockTx) (ns : Bytes) : List LedgerKeyID :=
  match tx.results with
  | some (some rwset) => evaluatedKeys rwset ns
  | _ => []

def BlockTx.lookups (tx : BlockTx) : List LedgerKeyID := tx.dispatched.flatMap tx.evaluated

inductive Phase where
  | visiting (rest : List Bytes)
  /-- PreValidate, with the positions below `i` still to be extracted. -/
  | preValidating (ns : Bytes) (i : Nat) (rest : List Bytes)
  | evaluating (ns : Bytes) (keys : List LedgerKeyID) (rest : List Bytes)
  /-- GetValidationParameterForKey, waiting for the dependencies of the positions below `i`. -/
  | waiting (ns : Bytes) (i : Nat) (kid : LedgerKeyID) (keys : List LedgerKeyID)
      (rest : List Bytes)
  /-- GetValidationParameterForKey, waiting for the results of the transactions `deps`. -/
  | retrieving (ns : Bytes) (deps : List Nat) (kid : LedgerKeyID) (keys : List LedgerKeyID)
      (rest : List Bytes)
  | posting (ns : Bytes) (passed : Bool) (rest : List Bytes)
  | done
deriving DecidableEq

/-- The positions whose channel depInserted is closed, and the signalled results: `true` stands for
no error. -/
structure ValidationContext where
  inserted : List Nat
  results : Nat → Bytes → Option Bool

open ValidationContext

def announced (block : List BlockTx) (i : Nat) : List LedgerKeyID :=
  match block[i]? with
  | some tx => tx.metadata
  | none => []

namespace ValidationContext

/-- The sync.Once of a position lets only the first call through; a second one changes nothing. -/
def extractDependenciesForTx (c : ValidationContext) (block : List BlockTx) (i : Nat) :
    ValidationContext :=
  match block[i]? with
  | some tx => if tx.results.isSome then { c with inserted := i :: c.inserted } else c
  | none => c

def setTxValidationResult (c : ValidationContext) (t : Nat) (ns : Bytes) (passed : Bool) :
    ValidationContext :=
  { c with results := fun i n => if i = t ∧ n = ns then some passed else c.results i n }

def dependenciesForTxnum (c : ValidationContext) (block : List BlockTx) (kid : LedgerKeyID)
    (t : Nat) : List Nat :=
  (List.range t).filter fun i => i ∈ c.inserted ∧ kid ∈ announced block i

end ValidationContext

section
variable (block : List BlockTx)

/-- One step of the worker of transaction `t`, none where it has to wait. The map of dependencies is
read in the order `order`. -/
def advance (c : ValidationContext) (t : Nat) (tx : BlockTx)
    (order : List Nat) : Phase → Option (Phase × ValidationContext)
  | .visiting [] => some (.done,c)
  | .visiting (ns :: rest) =>
    if tx.infoFound ns then some (.preValidating ns (t + 1) rest,c) else some (.done,c)
  | .preValidating ns 0 rest => some (.evaluating ns (tx.evaluated ns) rest,c)
  | .preValidating ns (i + 1) rest =>
    some (.preValidating ns i rest,c.extractDependenciesForTx block i)
  | .evaluating ns [] rest => some (.posting ns (tx.chaincodePolicy ns) rest,c)
  | .evaluating ns (kid :: keys) rest => some (.waiting ns t kid keys rest,c)
  | .waiting ns (i + 1) kid keys rest =>
    if i ∈ c.inserted then some (.waiting ns i kid keys rest,c) else none
  | .waiting ns 0 kid keys rest =>
    if order.Perm (c.dependenciesForTxnum block kid t) then
      some (.retrieving ns order kid keys rest,c)
    else none
  | .retrieving ns [] kid keys rest =>
    if tx.keyPolicy kid then some (.evaluating ns keys rest,c)
    else some (.posting ns false rest,c)
  | .retrieving ns (dep :: deps) kid keys rest =>
    match c.results dep kid.cc with
    | none => none
    | some true => some (.posting ns false rest,c)
    | some false => some (.retrieving ns deps kid keys rest,c)
  | .posting ns passed rest =>
    if passed then some (.visiting rest,c.setTxValidationResult t ns passed)
    else some (.done,c.setTxValidationResult t ns passed)
  | .done => none

structure Validation where
  phases : List Phase
  context : ValidationContext

def Validation.initial : Validation := ⟨[],⟨[],fun _ _ => none⟩⟩

def Validation.running (v : Validation) : Nat := v.phases.countP (· ≠ .done)

inductive Move where
  /-- The next worker is started; the map of namespaces is read in the order `order`. -/
  | start (order : List Bytes)
  | go (t : Nat) (order : List Nat)

/-- Validate: a worker is started while the semaphore admits one, and the workers interleave. -/
def Validation.next (workers : Nat) (v : Validation) : Move → Option Validation
  | .start order =>
    match block[v.phases.length]? with
    | none => none
    | some tx =>
      if v.running < workers ∧ order.Perm tx.dispatched then
        some { v with phases := v.phases ++ [.visiting order] }
      else none
  | .go t order =>
    match block[t]?,v.phases[t]? with
    | some tx,some p =>
      match advance block v.context t tx order p with
      | none => none
      | some (q,c) => some ⟨v.phases.set t q,c⟩
    | _,_ => none

def Validation.Finished (v : Validation) : Prop :=
  v.phases = List.replicate block.length .done

open Validation (Finished running)

abbrev Validating (workers : Nat) :=
  Run fun v m w => Validation.next block workers v m = some w

def awaited (t : Nat) (kid : LedgerKeyID) : Prop :=
  ∃ tx ∈ block.drop (t + 1), kid ∈ tx.lookups
deriving Decidable

end

/-- Every transaction before one that looks up a key can be decoded. -/
def Decoded (block : List BlockTx) : Prop :=
  ∀ u ∈ List.range block.length, ∀ later ∈ block.drop (u + 1), later.lookups ≠ [] →
    ∀ tx ∈ block[u]?, tx.results.isSome
deriving Decidable

/-- A worker that ends leaves a result in the namespace of each key whose metadata its transaction
writes and a later transaction looks up. -/
def LeavesResults (block : List BlockTx) (e : Transition Validation Move) : Prop :=
  match e.label with
  | .start _ => True
  | .go t _ => e.after.phases[t]? = some .done →
    ∀ kid ∈ announced block t, awaited block t kid → e.after.context.results t kid.cc ≠ none

instance : Decidable (LeavesResults block e) := by
  unfold LeavesResults
  split <;> infer_instance

/-- What a step of a worker can do. -/
inductive Advances (block : List BlockTx) (c : ValidationContext) (t : Nat) (tx : BlockTx) :
    Phase → Phase → ValidationContext → Prop
  | finish : Advances block c t tx (.visiting []) .done c
  | enter : Advances block c t tx (.visiting (ns :: rest)) (.preValidating ns (t + 1) rest) c
  | unknown : Advances block c t tx (.visiting (ns :: rest)) .done c
  | extracted : Advances block c t tx (.preValidating ns 0 rest)
      (.evaluating ns (tx.evaluated ns) rest) c
  | extract : Advances block c t tx (.preValidating ns (i + 1) rest) (.preValidating ns i rest)
      (c.extractDependenciesForTx block i)
  | evaluated : Advances block c t tx (.evaluating ns [] rest)
      (.posting ns (tx.chaincodePolicy ns) rest) c
  | lookUp : Advances block c t tx (.evaluating ns (kid :: keys) rest) (.waiting ns t kid keys rest) c
  | wait : i ∈ c.inserted →
      Advances block c t tx (.waiting ns (i + 1) kid keys rest) (.waiting ns i kid keys rest) c
  | waited : deps.Perm (c.dependenciesForTxnum block kid t) →
      Advances block c t tx (.waiting ns 0 kid keys rest) (.retrieving ns deps kid keys rest) c
  | satisfied : Advances block c t tx (.retrieving ns [] kid keys rest) (.evaluating ns keys rest) c
  | violated : Advances block c t tx (.retrieving ns deps kid keys rest) (.posting ns false rest) c
  | refused : c.results dep kid.cc = some false → Advances block c t tx
      (.retrieving ns (dep :: deps) kid keys rest) (.retrieving ns deps kid keys rest) c
  | accept : Advances block c t tx (.posting ns true rest) (.visiting rest)
      (c.setTxValidationResult t ns true)
  | reject : Advances block c t tx (.posting ns false rest) .done (c.setTxValidationResult t ns false)

theorem advances (h : advance block c t tx order p = some (q,d)) : Advances block c t tx p q d := by
  unfold advance at h
  split at h
  · cases h
    exact .finish
  · split at h <;> cases h
    · exact .enter
    · exact .unknown
  · cases h
    exact .extracted
  · cases h
    exact .extract
  · cases h
    exact .evaluated
  · cases h
    exact .lookUp
  · split at h <;> cases h
    exact .wait ‹_›
  · split at h <;> cases h
    exact .waited ‹_›
  · split at h <;> cases h
    · exact .satisfied
    · exact .violated
  · split at h <;> cases h
    · exact .violated
    · exact .refused ‹_›
  · split at h <;> cases h
    · rename_i hps
      exact hps ▸ .accept
    · rename_i hps
      exact Bool.eq_false_of_not_eq_true hps ▸ .reject
  · cases h

section
variable (n : Nat)

def keyWork : Nat := 2 * n + 3

def BlockTx.nsWork (tx : BlockTx) (ns : Bytes) : Nat :=
  n + 5 + (tx.evaluated ns).length * keyWork n

def BlockTx.visitWork (tx : BlockTx) (rest : List Bytes) : Nat :=
  1 + (rest.map (tx.nsWork n)).sum

def BlockTx.work (tx : BlockTx) : Phase → Nat
  | .visiting rest => tx.visitWork n rest
  | .preValidating ns i rest =>
    i + 1 + ((tx.evaluated ns).length * keyWork n + 2 + tx.visitWork n rest)
  | .evaluating _ keys rest => keys.length * keyWork n + 2 + tx.visitWork n rest
  | .waiting _ i _ keys rest => i + n + 2 + (keys.length * keyWork n + 2 + tx.visitWork n rest)
  | .retrieving _ deps _ keys rest =>
    deps.length + 1 + (keys.length * keyWork n + 2 + tx.visitWork n rest)
  | .posting _ _ rest => 1 + tx.visitWork n rest
  | .done => 0

def blockWork : List BlockTx → List Phase → Nat
  | [],_ => 0
  | tx :: txs,[] => 1 + tx.visitWork n tx.dispatched + blockWork txs []
  | tx :: txs,p :: ps => tx.work n p + blockWork txs ps

end

theorem visit_work_perm (tx : BlockTx) (h : List.Perm rest names) :
    tx.visitWork n rest = tx.visitWork n names := by
  unfold visitWork
  rw [(h.map (tx.nsWork n)).sum_nat]

theorem dependencies_length (c : ValidationContext) :
    (c.dependenciesForTxnum block kid t).length ≤ t := by
  refine (length_filter_le _ _).trans ?_
  rw [length_range]

theorem advance_work (ht : t < n) (h : advance block c t tx order p = some (q,d)) :
    tx.work n q < tx.work n p := by
  cases advances h with
  | enter =>
    simp only [work,visitWork,map_cons,sum_cons,nsWork]
    omega
  | lookUp =>
    simp only [work,length_cons,Nat.add_mul,keyWork]
    omega
  | waited hp =>
    have hl := hp.length_eq.trans_le (dependencies_length c)
    simp only [work]
    omega
  | _ =>
    simp only [work,visitWork,length_cons,length_nil]
    omega

theorem block_work_set (hb : bl[t]? = some tx) (hp : ps[t]? = some p) :
    blockWork n bl (ps.set t q) + tx.work n p = blockWork n bl ps + tx.work n q := by
  induction ps generalizing bl t with
  | nil => simp at hp
  | cons r ps ih =>
    cases bl with
    | nil => simp at hb
    | cons t' bl =>
      cases t with
      | zero =>
        cases hb
        cases hp
        simp only [set_cons_zero,blockWork]
        omega
      | succ t =>
        have hb' : bl[t]? = some tx := hb
        have ht := ih hb' hp
        simp only [set_cons_succ,blockWork]
        omega

theorem block_work_start (hb : bl[phases.length]? = some tx) (ho : order.Perm tx.dispatched) :
    blockWork n bl (phases ++ [.visiting order]) + 1 = blockWork n bl phases := by
  induction phases generalizing bl with
  | nil =>
    cases bl with
    | nil => simp at hb
    | cons t' bl =>
      cases hb
      simp only [nil_append,blockWork,work,visit_work_perm tx ho]
      omega
  | cons r phases ih =>
    cases bl with
    | nil => simp at hb
    | cons t' bl =>
      have hb' : bl[phases.length]? = some tx := hb
      have ht := ih hb'
      simp only [cons_append,blockWork]
      omega

theorem next_cases (h : Validation.next block ws v m = some w) :
    (∃ o tx, m = .start o ∧ block[v.phases.length]? = some tx ∧
      o.Perm tx.dispatched ∧ w = ⟨v.phases ++ [.visiting o],v.context⟩) ∨
    ∃ t o tx p q c, m = .go t o ∧ block[t]? = some tx ∧ v.phases[t]? = some p ∧
      advance block v.context t tx o p = some (q,c) ∧ w = ⟨v.phases.set t q,c⟩ := by
  cases m with
  | start o =>
    simp only [Validation.next] at h
    split at h
    · nomatch h
    rename_i tx hb
    split at h
    · rename_i hf
      cases h
      exact .inl ⟨o,tx,rfl,hb,hf.2,rfl⟩
    · nomatch h
  | go t o =>
    simp only [Validation.next] at h
    split at h
    · rename_i tx p hb hp
      split at h
      · nomatch h
      rename_i q c ha
      cases h
      exact .inr ⟨t,o,tx,p,q,c,rfl,hb,hp,ha,rfl⟩
    · nomatch h

theorem next_work (h : Validation.next block ws v m = some w) :
    blockWork block.length block w.phases < blockWork block.length block v.phases := by
  rcases next_cases h with ⟨o,tx,rfl,hb,ho,rfl⟩ | ⟨t,o,tx,p,q,c,rfl,hb,hp,ha,rfl⟩
  · have := block_work_start (n := block.length) hb ho
    simp only
    omega
  have hl := (List.getElem?_eq_some_iff.mp hb).1
  have hs := block_work_set (n := block.length) (q := q) hb hp
  have hle := advance_work hl ha
  simp only
  omega

def Phase.Within (tx : BlockTx) : Phase → Prop
  | .visiting rest => rest ⊆ tx.dispatched
  | .preValidating ns _ rest => ns ∈ tx.dispatched ∧ rest ⊆ tx.dispatched
  | .evaluating _ keys rest => keys ⊆ tx.lookups ∧ rest ⊆ tx.dispatched
  | .waiting _ _ kid keys rest => (kid ∈ tx.lookups ∧ keys ⊆ tx.lookups) ∧ rest ⊆ tx.dispatched
  | .retrieving _ _ kid keys rest =>
    (kid ∈ tx.lookups ∧ keys ⊆ tx.lookups) ∧ rest ⊆ tx.dispatched
  | .posting _ _ rest => rest ⊆ tx.dispatched
  | .done => True

theorem advance_within (hp : Phase.Within tx p) (h : advance block c t tx order p = some (q,d)) :
    q.Within tx := by
  cases advances h with
  | finish | unknown | reject => trivial
  | enter => exact ⟨hp mem_cons_self,subset_of_cons_subset hp⟩
  | extracted => exact ⟨fun _ h => mem_flatMap.mpr ⟨_,hp.1,h⟩,hp.2⟩
  | lookUp => exact ⟨⟨hp.1 mem_cons_self,subset_of_cons_subset hp.1⟩,hp.2⟩
  | satisfied => exact ⟨hp.1.2,hp.2⟩
  | evaluated | violated => exact hp.2
  | extract | wait | waited | refused | accept => exact hp

def decodes (block : List BlockTx) (i : Nat) : Prop := ∃ tx, block[i]? = some tx ∧ tx.results.isSome

def Phase.Grounded (block : List BlockTx) (c : ValidationContext) (t : Nat) : Phase → Prop
  | .visiting _ => True
  | .preValidating _ i _ => ∀ j, i ≤ j → j ≤ t → decodes block j → j ∈ c.inserted
  | .evaluating _ _ _ => ∀ j ≤ t, decodes block j → j ∈ c.inserted
  | .waiting _ i _ _ _ => (∀ j ≤ t, decodes block j → j ∈ c.inserted) ∧ i ≤ t
  | .retrieving _ deps kid _ _ =>
    (∀ j ≤ t, decodes block j → j ∈ c.inserted) ∧ ∀ d ∈ deps, d < t ∧ kid ∈ announced block d
  | .posting _ _ _ => True
  | .done => ∀ kid ∈ announced block t, awaited block t kid → c.results t kid.cc ≠ none

/-- Channels stay closed and results stay known. -/
structure ValidationContext.Grows (c d : ValidationContext) : Prop where
  inserted : ∀ i ∈ c.inserted, i ∈ d.inserted
  results : ∀ i ns, c.results i ns ≠ none → d.results i ns ≠ none

namespace ValidationContext.Grows

theorem refl (c : ValidationContext) : c.Grows c := ⟨fun _ h => h,fun _ _ h => h⟩

theorem extract (c : ValidationContext) (bl : List BlockTx) (i : Nat) :
    c.Grows (c.extractDependenciesForTx bl i) := by
  unfold extractDependenciesForTx
  split
  · split
    · exact ⟨fun _ h => mem_cons_of_mem _ h,fun _ _ h => h⟩
    · exact refl c
  · exact refl c

theorem post (c : ValidationContext) (t : Nat) (ns : Bytes) (pa : Bool) :
    c.Grows (c.setTxValidationResult t ns pa) := by
  refine ⟨fun _ h => h,?_⟩
  intro i n h
  simp only [setTxValidationResult]
  split
  · simp
  · exact h

end ValidationContext.Grows

theorem Phase.Grounded.grows {p : Phase} (h : p.Grounded block c t)
    (hg : Grows c d) : p.Grounded block d t := by
  cases p with
  | visiting => trivial
  | preValidating => exact fun j hi hj hd => hg.inserted j (h j hi hj hd)
  | evaluating => exact fun j hj hd => hg.inserted j (h j hj hd)
  | waiting | retrieving => exact ⟨fun j hj hd => hg.inserted j (h.1 j hj hd),h.2⟩
  | posting => trivial
  | done => exact fun ki hk ha => hg.results t ki.cc (h ki hk ha)

def Phase.pending : Phase → List Bytes
  | .visiting rest => rest
  | .preValidating ns _ rest => ns :: rest
  | .evaluating ns _ rest => ns :: rest
  | .waiting ns _ _ _ rest => ns :: rest
  | .retrieving ns _ _ _ rest => ns :: rest
  | .posting ns _ rest => ns :: rest
  | .done => []

theorem advance_posts (h : advance block c t tx order p = some (q,d)) : c.inserted ⊆ d.inserted ∧
    ((d.results = c.results ∧ q.pending.Sublist p.pending) ∨
    ∃ ns pa re, p = .posting ns pa re ∧ d = c.setTxValidationResult t ns pa ∧
      q.pending.Sublist re) := by
  cases advances h with
  | extract =>
    refine ⟨(Grows.extract c block _).inserted,.inl ⟨?_,.refl _⟩⟩
    unfold ValidationContext.extractDependenciesForTx
    split
    · split <;> rfl
    · rfl
  | accept => exact ⟨.refl _,.inr ⟨_,_,_,rfl,rfl,.refl _⟩⟩
  | reject => exact ⟨.refl _,.inr ⟨_,_,_,rfl,rfl,nil_sublist _⟩⟩
  | unknown => exact ⟨.refl _,.inl ⟨rfl,nil_sublist _⟩⟩
  | _ => exact ⟨.refl _,.inl ⟨rfl,.refl _⟩⟩

theorem advance_grows (h : advance block c t tx order p = some (q,d)) : c.Grows d := by
  obtain ⟨hin,⟨hr,_⟩ | ⟨ns,pa,_,_,rfl,_⟩⟩ := advance_posts h
  · exact ⟨hin,fun i n hk => hr ▸ hk⟩
  · exact .post c t ns pa

theorem extract_inserted {c : ValidationContext} (h : decodes block i) :
    i ∈ (c.extractDependenciesForTx block i).inserted := by
  obtain ⟨tx,hb,hd⟩ := h
  simp only [ValidationContext.extractDependenciesForTx,hb,hd,if_true]
  exact mem_cons_self

theorem dependency_earlier {c : ValidationContext} (h : i ∈ c.dependenciesForTxnum block kid t) :
    i < t ∧ kid ∈ announced block i := by
  obtain ⟨hr,hm⟩ := mem_filter.mp h
  exact ⟨mem_range.mp hr,(of_decide_eq_true hm).2⟩

theorem advance_grounded (hp : p.Grounded block c t) (h : advance block c t tx order p = some (q,d))
    (he : q = .done → q.Grounded block d t) : q.Grounded block d t := by
  cases advances h with
  | finish | unknown | reject => exact he rfl
  | enter =>
    intro j hi hj
    omega
  | extracted => exact fun j hj => hp j (Nat.zero_le j) hj
  | extract =>
    intro j hi hj hde
    rcases Nat.eq_or_lt_of_le hi with rfl | hlt
    · exact extract_inserted hde
    · exact (Grows.extract c block _).inserted j (hp j hlt hj hde)
  | lookUp => exact ⟨hp,le_refl t⟩
  | wait => exact ⟨hp.1,Nat.le_of_succ_le hp.2⟩
  | waited hpe => exact ⟨hp.1,fun d hd => dependency_earlier (hpe.mem_iff.mp hd)⟩
  | satisfied => exact hp.1
  | refused => exact ⟨hp.1,fun d hd => hp.2 d (mem_cons_of_mem _ hd)⟩
  | evaluated | violated | accept => trivial

structure Validation.Sound (block : List BlockTx) (v : Validation) : Prop where
  started : v.phases.length ≤ block.length
  within : ∀ (t : Nat) p tx, v.phases[t]? = some p → block[t]? = some tx → Phase.Within tx p
  grounded : ∀ (t : Nat) p, v.phases[t]? = some p → Phase.Grounded block v.context t p

theorem initial_sound (block : List BlockTx) : Validation.initial.Sound block :=
  ⟨Nat.zero_le _,fun t p tx h => by simp [Validation.initial] at h,
    fun t p h => by simp [Validation.initial] at h⟩

theorem phase_started (h : (ps ++ [q])[i]? = some r) : ps[i]? = some r ∨ i = ps.length ∧ r = q := by
  rcases Nat.lt_or_ge i ps.length with hi | hi
  · rw [List.getElem?_append_left hi] at h
    exact .inl h
  rw [List.getElem?_append_right hi] at h
  obtain ⟨ho,hr⟩ := List.getElem?_eq_some_iff.mp h
  simp only [length_singleton] at ho
  exact .inr ⟨by omega,hr.symm.trans (getElem_singleton _)⟩

theorem phase_set {ps : List Phase} (h : (ps.set t q)[i]? = some r) :
    t = i ∧ q = r ∨ t ≠ i ∧ ps[i]? = some r := by
  by_cases hi : t = i
  · subst hi
    obtain ⟨hin,hr⟩ := List.getElem?_eq_some_iff.mp h
    exact .inl ⟨rfl,(getElem_set_self hin).symm.trans hr⟩
  · rw [List.getElem?_set_ne hi] at h
    exact .inr ⟨hi,h⟩

theorem next_sound (e : Transition Validation Move) (hs : e.before.Sound block)
    (h : Validation.next block ws e.before e.label = some e.after)
    (he : LeavesResults block e) : e.after.Sound block := by
  rcases next_cases h with ⟨o,tx,hm,hb,ho,hw⟩ | ⟨t,o,tx,p,q,c,hm,hb,hp,ha,hw⟩
  · rw [hw]
    have hl := (List.getElem?_eq_some_iff.mp hb).1
    refine ⟨by simpa using Nat.succ_le_of_lt hl,?_,?_⟩
    · intro i r t' hr hb'
      rcases phase_started hr with hd | ⟨rfl,rfl⟩
      · exact hs.within i r t' hd hb'
      · cases hb.symm.trans hb'
        exact ho.subset
    · intro i r hr
      rcases phase_started hr with hd | ⟨rfl,rfl⟩
      · exact hs.grounded i r hd
      · trivial
  · simp only [LeavesResults,hm,hw] at he
    rw [hw]
    refine ⟨by simpa using hs.started,?_,?_⟩
    · intro i r t' hr hb'
      rcases phase_set hr with ⟨rfl,rfl⟩ | ⟨_,hr⟩
      · cases hb.symm.trans hb'
        exact advance_within (hs.within t p tx hp hb) ha
      · exact hs.within i r t' hr hb'
    · intro i r hr
      rcases phase_set hr with ⟨rfl,rfl⟩ | ⟨_,hd⟩
      · apply advance_grounded (hs.grounded t p hp) ha
        rintro rfl
        exact he hr
      · exact (hs.grounded i r hd).grows (advance_grows ha)

theorem awaited_of_later (hb : block[t]? = some tx) (hlt : d < t) (hk : kid ∈ tx.lookups) :
    awaited block d kid := by
  refine ⟨tx,?_,hk⟩
  apply mem_of_getElem? (i := t - (d + 1))
  rw [List.getElem?_drop,Nat.add_sub_cancel' hlt]
  exact hb

theorem Decoded.earlier (h : Decoded block) (hb : block[t]? = some tx) (hlt : d < t)
    (hk : kid ∈ tx.lookups) : decodes block d := by
  have ht := (List.getElem?_eq_some_iff.mp hb).1
  obtain ⟨l,hl,hm⟩ := awaited_of_later hb hlt hk
  have hd := List.getElem?_eq_getElem (hlt.trans ht)
  refine ⟨_,hd,?_⟩
  exact h d (mem_range.mpr (hlt.trans ht)) l hl (ne_nil_of_mem hm) _
    (Option.mem_def.mpr hd)

theorem advance_enabled (hb : block[t]? = some tx)
    (hd : Decoded block) (hw : p.Within tx) (hp : p.Grounded block c t) (hne : p ≠ .done)
    (he : ∀ d < t, Phase.done.Grounded block c d) :
    ∃ o r, advance block c t tx o p = some r := by
  cases p with
  | visiting re =>
    cases re with
    | nil => exact ⟨[],_,rfl⟩
    | cons ns re =>
      simp only [advance]
      split <;> exact ⟨[],_,rfl⟩
  | preValidating ns i re => cases i <;> exact ⟨[],_,rfl⟩
  | evaluating ns ks re => cases ks <;> exact ⟨[],_,rfl⟩
  | waiting ns i ki ks re =>
    cases i with
    | zero =>
      exact ⟨c.dependenciesForTxnum block ki t,_,if_pos (List.Perm.refl _)⟩
    | succ i =>
      have hi : i < t := hp.2
      exact ⟨[],_,if_pos (hp.1 i hi.le (hd.earlier hb hi hw.1.1))⟩
  | retrieving ns ds ki ks re =>
    cases ds with
    | nil =>
      simp only [advance]
      split <;> exact ⟨[],_,rfl⟩
    | cons de ds =>
      obtain ⟨hlt,hk⟩ := hp.2 de mem_cons_self
      have hkn := he de hlt ki hk (awaited_of_later hb hlt hw.1.1)
      simp only [advance]
      split
      · rename_i hn
        exact absurd hn hkn
      · exact ⟨[],_,rfl⟩
      · exact ⟨[],_,rfl⟩
  | posting ns pa re =>
    simp only [advance]
    split <;> exact ⟨[],_,rfl⟩
  | done => exact absurd rfl hne

theorem Validation.Sound.progress (hs : v.Sound block) (hde : Decoded block) (hw : 0 < workers) :
    (∃ m w, Validation.next block workers v m = some w) ∨ v.Finished block := by
  by_cases ha : ∀ p ∈ v.phases, p = .done
  · rcases Nat.eq_or_lt_of_le hs.started with hl | hl
    · refine .inr ?_
      unfold Finished
      rw [eq_replicate_iff]
      exact ⟨hl,ha⟩
    have hid : v.running = 0 := by
      unfold running
      rw [countP_eq_zero]
      intro p hp
      simp [ha p hp]
    have hf : v.running < workers := by omega
    let o := (block[v.phases.length]).dispatched
    refine .inl ⟨.start o,{ v with phases := v.phases ++ [.visiting o] },?_⟩
    simp only [Validation.next,List.getElem?_eq_getElem hl]
    exact if_pos ⟨hf,List.Perm.refl _⟩
  · push Not at ha
    obtain ⟨p,hp,hne⟩ := ha
    obtain ⟨t,ht,hm⟩ : ∃ t, (∃ q, v.phases[t]? = some q ∧ q ≠ Phase.done) ∧
        ∀ d < t, ¬ ∃ q, v.phases[d]? = some q ∧ q ≠ Phase.done := by
      obtain ⟨i,hi⟩ := mem_iff_getElem?.mp hp
      have hex : ∃ t, ∃ q, v.phases[t]? = some q ∧ q ≠ Phase.done := ⟨i,p,hi,hne⟩
      exact ⟨Nat.find hex,Nat.find_spec hex,fun d hd => Nat.find_min hex hd⟩
    obtain ⟨q,hq,hn⟩ := ht
    have hin := (List.getElem?_eq_some_iff.mp hq).1
    obtain ⟨tx,hb⟩ : ∃ tx, block[t]? = some tx :=
      ⟨_,List.getElem?_eq_getElem (hin.trans_le hs.started)⟩
    have he : ∀ d < t, Phase.done.Grounded block v.context d := by
      intro d hd
      have hdo : v.phases[d]? = some .done := by
        rw [List.getElem?_eq_getElem (hd.trans hin)]
        by_contra hne'
        exact hm d hd ⟨_,List.getElem?_eq_getElem (hd.trans hin),fun h => hne' (congrArg some h)⟩
      exact hs.grounded d .done hdo
    obtain ⟨o,r,hr⟩ := advance_enabled hb hde (hs.within t q tx hq hb)
      (hs.grounded t q hq) hn he
    refine .inl ⟨.go t o,⟨v.phases.set t r.1,r.2⟩,?_⟩
    simp only [Validation.next,hb,hq,hr]

/-- Validate terminates when every transaction before one that looks up a validation parameter can
be decoded, and no worker ends without a result that a later one waits for. -/
theorem validation_terminates (hdec : Decoded block) (hworkers : 0 < workers)
    (h : Validating block workers .initial es v) (hends : ∀ e ∈ es, LeavesResults block e) :
    es.length ≤ blockWork block.length block [] ∧
      ((∃ m w, Validation.next block workers v m = some w) ∨ v.Finished block) := by
  have hl := h.length_le (μ := fun v => blockWork block.length block v.phases)
    (fun _ _ _ hn => next_work hn)
  obtain ⟨hs,_⟩ := h.invariant_when next_sound (initial_sound block) hends
  exact ⟨(Nat.le_add_right _ _).trans hl,hs.progress hdec hworkers⟩

def sampleResults : TxRwSet :=
  let written : KVRWSet := ⟨[],[],[⟨[7],false,[1]⟩],[⟨[7],[]⟩]⟩
  ⟨[⟨[1],written,[]⟩,⟨[2],written,[]⟩]⟩

def sampleWrite : TxRwSet := ⟨[⟨[1],⟨[],[],[⟨[7],false,[2]⟩],[]⟩,[]⟩]⟩

def sampleTx (results : Option (Option TxRwSet)) (accepted : Bool) (endorsed : List Bytes) :
    BlockTx where
  results := results
  accepted := accepted
  ccID := [1]
  infoFound _ := true
  keyPolicy kid := kid.cc ∈ endorsed
  chaincodePolicy ns := ns ∈ endorsed

def sampleBlock (first : BlockTx) : List BlockTx :=
  [first,sampleTx (some (some sampleWrite)) true [[1]]]

def samplePosting : BlockTx := sampleTx (some (some sampleResults)) true [[1],[2]]

def goes (t k : Nat) : List Move := List.replicate k (.go t [])

def sampleRun :=
  (trace (Validation.next (sampleBlock samplePosting) 2) .initial
    ([.start [[1],[2]],.start [[1]]] ++ goes 1 6 ++ goes 0 23 ++ [.go 1 [0]] ++ goes 1 2)).get rfl

theorem sample_terminates : sampleRun.1.Finished (sampleBlock samplePosting) ∧
      sampleRun.2.length ≤ blockWork 2 (sampleBlock samplePosting) [] :=
  ⟨rfl,(validation_terminates (by decide) (by decide) (trace_get_run rfl) (by decide)).1⟩

/-- A run reaches a state in which no step is possible, though a worker has not ended. -/
def Deadlocks (block : List BlockTx) (workers : Nat) : Prop :=
  ∃ es v, Validating block workers .initial es v ∧ ¬ v.Finished block ∧
    ∀ m, Validation.next block workers v m = none

theorem deadlocks_of_trace {bl : List BlockTx} (ms : List Move)
    (h : (trace (Validation.next bl workers) .initial ms).isSome)
    (hf : ¬ ((trace (Validation.next bl workers) .initial ms).get h).1.Finished bl)
    (hst : ∀ o, Validation.next bl workers
      ((trace (Validation.next bl workers) .initial ms).get h).1 (.start o) = none)
    (hgo : ∀ t o, Validation.next bl workers
      ((trace (Validation.next bl workers) .initial ms).get h).1 (.go t o) = none) :
    Deadlocks bl workers := by
  refine ⟨_,_,trace_get_run h,hf,?_⟩
  intro m
  cases m with
  | start o => exact hst o
  | go t o => exact hgo t o

/-- The second transaction waits forever when the first cannot be decoded, is refused before its
plugin is called, or fails in a namespace before the one waited for. -/
theorem unposted_deadlocks : Deadlocks (sampleBlock (sampleTx none true [])) 2 ∧
    Deadlocks (sampleBlock (sampleTx (some (some sampleResults)) false [[1],[2]])) 2 ∧
    Deadlocks (sampleBlock (sampleTx (some (some sampleResults)) true [[1]])) 2 := by
  refine ⟨deadlocks_of_trace ([.start [],.start [[1]]] ++ goes 0 1 ++ goes 1 5) rfl nofun
      (fun _ => rfl) ?_,
    deadlocks_of_trace ([.start [],.start [[1]]] ++ goes 0 1 ++ goes 1 6 ++ [.go 1 [0]]) rfl nofun
      (fun _ => rfl) ?_,
    deadlocks_of_trace ([.start [[2],[1]],.start [[1]]] ++ goes 0 7 ++ goes 1 6 ++ [.go 1 [0]]) rfl
      nofun (fun _ => rfl) ?_⟩
  all_goals
    intro t o
    rcases t with _ | _ | t <;> rfl

end PluggableHcs.Txvalidator
