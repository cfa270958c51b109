import PluggableHcs.Txvalidator.KeyLevelPolicies

namespace PluggableHcs.Txvalidator
open Runs Txmgmt ValidationContext EndorsedTx
open List hiding keys

def Phase.Fresh (c : ValidationContext) (t : Nat) (p : Phase) : Prop :=
  p.pending.Nodup ∧ ∀ ns ∈ p.pending, c.results t ns = none

theorem advance_fresh (hp : p.Fresh c t) (h : advance block c t tx order p = some (q,d)) :
    q.Fresh d t := by
  rcases (advance_posts h).2 with ⟨hr,hs⟩ | ⟨ns,pa,re,rfl,rfl,hs⟩
  · exact ⟨hp.1.sublist hs,fun n hn => hr ▸ hp.2 n (hs.subset hn)⟩
  obtain ⟨hns,hre⟩ := nodup_cons.mp hp.1
  refine ⟨hre.sublist hs,?_⟩
  intro n hn
  have hne : n ≠ ns := fun he => hns (he ▸ hs.subset hn)
  simp only [setTxValidationResult,hne,and_false,if_false]
  exact hp.2 n (mem_cons_of_mem _ (hs.subset hn))

theorem advance_others (h : advance block c t tx order p = some (q,d)) (hi : i ≠ t) :
    d.results i n = c.results i n := by
  rcases (advance_posts h).2 with ⟨hr,_⟩ | ⟨ns,pa,re,_,rfl,_⟩
  · rw [hr]
  · simp only [setTxValidationResult,hi,false_and,if_false]

theorem advance_keeps (hp : p.Fresh c t) (h : advance block c t tx order p = some (q,d))
    (hr : c.results i n = some b) : d.results i n = some b := by
  rcases (advance_posts h).2 with ⟨hs,_⟩ | ⟨ns,pa,re,rfl,rfl,_⟩
  · rw [hs,hr]
  simp only [setTxValidationResult]
  split
  · rename_i hat
    obtain ⟨rfl,rfl⟩ := hat
    cases (hp.2 n mem_cons_self).symm.trans hr
  · exact hr

def Undisturbed (block : List BlockTx) (c : ValidationContext) (t : Nat) (kid : LedgerKeyID) :
    Prop :=
  ∀ d < t, kid ∈ announced block d → c.results d kid.cc = some false

def Clear (block : List BlockTx) (c : ValidationContext) (t : Nat) (keys left : List LedgerKeyID) :
    Prop :=
  ∀ kid ∈ keys, kid ∈ left ∨ Undisturbed block c t kid

def Phase.Cleared (block : List BlockTx) (c : ValidationContext) (t : Nat) (tx : BlockTx) :
    Phase → Prop
  | .visiting _ | .preValidating _ _ _ | .done => True
  | .evaluating ns keys _ => Clear block c t (tx.evaluated ns) keys
  | .waiting ns i kid keys _ =>
    (∀ j, i ≤ j → j < t → j ∈ c.inserted) ∧ Clear block c t (tx.evaluated ns) (kid :: keys)
  | .retrieving ns deps kid keys _ =>
    (∀ d < t, kid ∈ announced block d → d ∈ deps ∨ c.results d kid.cc = some false) ∧
      Clear block c t (tx.evaluated ns) (kid :: keys)
  | .posting ns passed _ => passed = true →
    tx.chaincodePolicy ns = true ∧ Clear block c t (tx.evaluated ns) []

theorem Clear.mono (h : Clear block c t ks left)
    (hr : ∀ i n b, c.results i n = some b → d.results i n = some b) :
    Clear block d t ks left := by
  intro ki hk
  rcases h ki hk with hl | hs
  · exact .inl hl
  · exact .inr fun e he hm => hr e _ _ (hs e he hm)

theorem Phase.Cleared.mono {p : Phase} (h : p.Cleared block c t tx) (hi : c.inserted ⊆ d.inserted)
    (hr : ∀ i n b, c.results i n = some b → d.results i n = some b) :
    p.Cleared block d t tx := by
  cases p with
  | visiting | preValidating | done => trivial
  | evaluating => exact Clear.mono h hr
  | waiting => exact ⟨fun j hj ht => hi (h.1 j hj ht),h.2.mono hr⟩
  | retrieving =>
    exact ⟨fun e he hm => (h.1 e he hm).imp id (hr e _ _),h.2.mono hr⟩
  | posting => exact fun hps => ⟨(h hps).1,(h hps).2.mono hr⟩

theorem advance_cleared (hp : p.Cleared block c t tx)
    (h : advance block c t tx order p = some (q,d)) : q.Cleared block d t tx := by
  cases advances h with
  | finish | enter | unknown | extract | accept | reject => trivial
  | extracted => exact fun ki hk => .inl hk
  | evaluated => exact fun hps => ⟨hps,hp⟩
  | lookUp => exact ⟨fun j hj ht => absurd ht (Nat.not_lt.mpr hj),hp⟩
  | wait hin =>
    refine ⟨fun j hj ht => ?_,hp.2⟩
    rcases Nat.eq_or_lt_of_le hj with rfl | hlt
    · exact hin
    · exact hp.1 j hlt ht
  | waited hpe =>
    refine ⟨fun d hd hm => .inl (hpe.mem_iff.mpr ?_),hp.2⟩
    exact mem_filter.mpr
      ⟨mem_range.mpr hd,decide_eq_true ⟨hp.1 d (Nat.zero_le d) hd,hm⟩⟩
  | satisfied =>
    intro o ho
    rcases hp.2 o ho with hl | hdo
    · rcases mem_cons.mp hl with rfl | hl
      · exact .inr fun d hd hm => (hp.1 d hd hm).resolve_left not_mem_nil
      · exact .inl hl
    · exact .inr hdo
  | violated =>
    intro hps
    cases hps
  | refused hr =>
    refine ⟨fun e he hm => ?_,hp.2⟩
    rcases hp.1 e he hm with hin | hno
    · rcases mem_cons.mp hin with rfl | hin
      · exact .inr hr
      · exact .inl hin
    · exact .inr hno

/-- A result that was posted was posted once, and an acceptance only after every check. -/
structure Validation.Guarded (block : List BlockTx) (v : Validation) : Prop where
  unstarted : ∀ t, v.phases.length ≤ t → ∀ ns, v.context.results t ns = none
  fresh : ∀ (t : Nat) p, v.phases[t]? = some p → p.Fresh v.context t
  cleared : ∀ (t : Nat) p tx, v.phases[t]? = some p → block[t]? = some tx →
    p.Cleared block v.context t tx
  accepted : ∀ (t : Nat) tx ns, block[t]? = some tx → v.context.results t ns = some true →
    tx.chaincodePolicy ns = true ∧ Clear block v.context t (tx.evaluated ns) []

open Validation

theorem dispatched_nodup (tx : BlockTx) : tx.dispatched.Nodup := by
  unfold BlockTx.dispatched
  split
  · split
    · rename_i hok
      exact (hok.2.sublist (filter_sublist.map _)).insert
    · exact nodup_nil
  · exact nodup_nil

theorem next_guarded (v : Validation) (m : Move) (w : Validation) (hv : v.Guarded block)
    (h : next block ws v m = some w) : w.Guarded block := by
  rcases next_cases h with ⟨o,tx,rfl,hb,ho,rfl⟩ | ⟨t,o,tx,p,q,c,rfl,hb,hp,ha,rfl⟩
  · refine ⟨?_,?_,?_,hv.accepted⟩
    · intro i hi
      simp only [length_append,length_singleton] at hi
      exact hv.unstarted i (by omega)
    · intro i r hr
      rcases phase_started hr with hd | ⟨rfl,rfl⟩
      · exact hv.fresh i r hd
      · exact ⟨ho.nodup_iff.mpr (dispatched_nodup tx),fun n _ => hv.unstarted _ (Nat.le_refl _) n⟩
    intro i r t' hr hb'
    rcases phase_started hr with hd | ⟨rfl,rfl⟩
    · exact hv.cleared i r t' hd hb'
    · trivial
  · have hin := (List.getElem?_eq_some_iff.mp hp).1
    have hf := hv.fresh t p hp
    have hk : ∀ i n b, v.context.results i n = some b → c.results i n = some b :=
      fun i n b => advance_keeps hf ha
    refine ⟨?_,?_,?_,?_⟩
    · intro i hi n
      simp only [length_set] at hi
      rw [advance_others ha (by omega)]
      exact hv.unstarted i hi n
    · intro i r hr
      rcases phase_set hr with ⟨rfl,rfl⟩ | ⟨hi,hr⟩
      · exact advance_fresh hf ha
      · obtain ⟨hno,hne⟩ := hv.fresh i r hr
        exact ⟨hno,fun n hn => (advance_others ha (Ne.symm hi)).trans (hne n hn)⟩
    · intro i r t' hr hb'
      rcases phase_set hr with ⟨rfl,rfl⟩ | ⟨hi,hr⟩
      · cases hb.symm.trans hb'
        exact advance_cleared (hv.cleared t p tx hp hb) ha
      · exact (hv.cleared i r t' hr hb').mono (advance_posts ha).1 hk
    · intro i t' n hb' hr
      have hd : v.context.results i n = some true →
          t'.chaincodePolicy n = true ∧ Clear block c i (t'.evaluated n) [] := fun hr =>
        ⟨(hv.accepted i t' n hb' hr).1,(hv.accepted i t' n hb' hr).2.mono hk⟩
      rcases (advance_posts ha).2 with ⟨hs,_⟩ | ⟨ns,pa,re,rfl,rfl,_⟩
      · exact hd (hs ▸ hr)
      simp only [setTxValidationResult] at hr
      split at hr
      · rename_i hat
        obtain ⟨rfl,rfl⟩ := hat
        cases hb.symm.trans hb'
        obtain ⟨hpo,hc⟩ := hv.cleared i _ tx hp hb (Option.some.inj hr)
        exact ⟨hpo,hc.mono hk⟩
      · exact hd hr

theorem initial_guarded (block : List BlockTx) : initial.Guarded block :=
  ⟨fun _ _ _ => rfl,fun t p h => by simp [initial] at h,
    fun t p tx h => by simp [initial] at h,fun _ _ _ _ h => by cases h⟩

/-- What a transaction accepted for a namespace writes there is endorsed under the policy in force,
which no earlier accepted one changes; without writes there, the chaincode policy is satisfied. -/
theorem accepted_writes_endorsed {block : List EndorsedTx} (hb : block[t]? = some tx)
    (hnamed : ∀ w ∈ tx.written ns, w.named)
    (h : Validating (block.map (blockTx s)) workers .initial es v)
    (haccepted : v.context.results t ns = some true) :
    (∀ w ∈ tx.written ns, (s.policyInForce ns w).any tx.satisfies ∧
      ∀ d < t, v.context.results d ns = some true → w.id ns ∉ announced (block.map (blockTx s)) d) ∧
    (tx.written ns = [] → tx.satisfies (s.ccEP ns)) := by
  obtain ⟨hv,_⟩ := h.invariant next_guarded (initial_guarded _)
  have hb' : (block.map (blockTx s))[t]? = some (tx.blockTx s) := by
    rw [List.getElem?_map,hb]
    rfl
  obtain ⟨hp,hc⟩ := hv.accepted t _ ns hb' haccepted
  obtain ⟨he,hn⟩ := evaluate_right hnamed hp
  refine ⟨fun w hw => ⟨he w hw,?_⟩,hn⟩
  intro d hd ht hm
  have hk : w.id ns ∈ (tx.blockTx s).evaluated ns := evaluated_of_written hw
  have hs := (hc _ hk).resolve_left not_mem_nil
  have hf := hs d hd hm
  rw [WrittenKey.id_cc] at hf
  cases ht.symm.trans hf

def sampleEndorsed (coll policy : Bytes) : EndorsedTx where
  results := some (some ⟨[⟨[1],⟨[],[],[],[]⟩,[⟨coll,⟨[],[⟨[7],false,[2]⟩],[]⟩,[]⟩]⟩]⟩)
  accepted := true
  ccID := [1]
  infoFound _ := true
  satisfies ep := ep = policy
  keyFails _ := false
  collFails _ := false

def sampleCommitted : Committed where
  stateMetadata _ key := if key = [7] then [3] else []
  privateDataMetadataByHash _ coll _ := if coll = [] then none else some []
  collectionValidationInfo _ coll := if coll = [] then none else some [5]
  ccEP _ := [6]
  signaturePolicy b := some b

def sampleTrace (txs : List EndorsedTx) :=
  trace (next (txs.map (blockTx sampleCommitted)) txs.length) .initial

def namedBlock : List EndorsedTx := [sampleEndorsed [8] [5],sampleEndorsed [4] [5]]

def namedRun := (sampleTrace namedBlock
  ([.start [[1]],.start [[1]]] ++ goes 1 6 ++ goes 0 9 ++ goes 1 5)).get rfl

def unnamedRun := (sampleTrace [sampleEndorsed [] [10,3]] (.start [[1]] :: goes 0 9)).get rfl

/-- The second transaction waits for the first. -/
theorem sample_writes_endorsed : namedRun.1.context.results 1 [1] = some true ∧
      (sampleCommitted.policyInForce [1] (.pvt [4] [7])).any (sampleEndorsed [4] [5]).satisfies :=
  ⟨rfl,((accepted_writes_endorsed (t := 1) (v := namedRun.1)
    (show namedBlock[1]? = some (sampleEndorsed [4] [5]) from rfl) (by decide)
    (trace_get_run rfl) rfl).1 _ mem_cons_self).1⟩

/-- A write in a collection with the empty name is checked against the parameter of the public key
that is named like the hash. -/
theorem unnamed_collection_accepted :
    ∃ es v, Validating [(sampleEndorsed [] [10,3]).blockTx sampleCommitted] 1 .initial es v ∧
      v.Finished [(sampleEndorsed [] [10,3]).blockTx sampleCommitted] ∧
      v.context.results 0 [1] = some true ∧
      ∃ w ∈ (sampleEndorsed [] [10,3]).written [1],
        sampleCommitted.policyInForce [1] w = some (sampleCommitted.ccEP [1]) ∧
        ¬ (sampleEndorsed [] [10,3]).satisfies (sampleCommitted.ccEP [1]) :=
  ⟨unnamedRun.2,unnamedRun.1,trace_get_run rfl,rfl,rfl,_,mem_cons_self,rfl,by decide⟩

end PluggableHcs.Txvalidator
