import PluggableHcs.Txmgmt.Serializability

namespace PluggableHcs.Txmgmt
open Readings List Option Outcomes

structure Turn where
  tx : Transaction
  code : TxValidationCode
  time : Nat
  before : Batch
  after : Batch

section
variable (H : HashFunc) (db : Db) (fault : Nat → Bool) (doMVCCValidation : Bool)

def turns (num : Nat) : List Transaction → Batch → Nat → List Turn
  | [],_,_ => []
  | tx :: txs,updates,t =>
    match processTx H db fault doMVCCValidation num tx updates t with
    | .error _ => []
    | .ok out =>
      let validated :=
        (validateEndorserTX H db updates doMVCCValidation tx.rwset).run fault .database t
      ⟨tx,out.1,validated.2,updates,out.2.1⟩ :: turns num txs out.2.1 out.2.2

def Turn.Reflected (num : Nat) (turn : Turn) : Prop :=
  ∃ updates, (applyWriteSet turn.before turn.tx.rwset ⟨num,turn.tx.indexInBlock⟩ db).result =
      .ok updates ∧
    ∀ s k, turn.after.get s k = updates.get s k

/-- No read fails while the write set is applied, unless it comes to nothing. -/
def Turn.Undisturbed (num : Nat) (turn : Turn) : Prop :=
  (applyWriteSet turn.before turn.tx.rwset ⟨num,turn.tx.indexInBlock⟩ db).Undisturbed fault
    turn.time ∨
  ∀ ck, finalOps turn.tx.rwset turn.before db ck = none

inductive Replays (num : Nat) : Batch → List (Transaction × TxValidationCode) → Batch → Prop
  | nil : Replays num updates [] updates
  | skip (invalid : code ≠ .valid) (rest : Replays num updates txs final) :
      Replays num updates ((tx,code) :: txs) final
  | apply (applied : (applyWriteSet updates tx.rwset ⟨num,tx.indexInBlock⟩ db).result = .ok u)
      (same : ∀ s k, updates'.get s k = u.get s k) (rest : Replays num updates' txs final) :
      Replays num updates ((tx,.valid) :: txs) final

variable {H db fault doMVCCValidation} {us u' : Batch}

theorem written_version (h : finalOps rt us db ck = some ops)
    (ha : (applyWriteSet us rt txHeight db).result = .ok u') :
    ∃ vv, u'.get ck.space ck.key = some vv ∧ vv.version = txHeight := by
  refine ⟨ops.entry txHeight,?_,entry_version ops txHeight⟩
  rw [(apply_write_set_ok ha).2,written,composite_key_iff.mpr ⟨rfl,rfl⟩,bind_some,h]
  rfl

def Batch.Below (b : Batch) (num index : Nat) : Prop :=
  ∀ s k vv, b.get s k = some vv → vv.version.blockNum = num ∧ vv.version.txNum < index

theorem Batch.Below.apply {ix index' : Nat} (hb : us.Below num ix)
    (ha : (applyWriteSet us rt ⟨num,ix⟩ db).result = .ok u')
    (hlt : ix < index') : u'.Below num index' := by
  intro s k vv hvv
  rw [(apply_write_set_ok ha).2,or_eq_some_iff] at hvv
  rcases hvv with hw | ⟨_,hvv⟩
  · obtain ⟨os,_,rfl⟩ := map_eq_some_iff.mp hw
    rw [entry_version]
    exact ⟨rfl,hlt⟩
  · obtain ⟨hn,hi⟩ := hb s k vv hvv
    exact ⟨hn,hi.trans hlt⟩

theorem turn_reflected_iff (h : Processed H db fault doMVCCValidation num tx us t .valid u' t')
    (he : us.Below num tx.indexInBlock) : let tu : Turn := ⟨tx,.valid,
      ((validateEndorserTX H db us doMVCCValidation tx.rwset).run fault .database t).2,
      us,u'⟩
    tu.Reflected db num ↔ tu.Undisturbed db fault num := by
  cases h with
  | invalid _ _ invalid => exact absurd rfl invalid
  | applied t₁ va applied =>
    rw [va]
    obtain ⟨hq,ha⟩ := run_ok applied
    exact ⟨fun _ => .inl hq,fun _ => ⟨u',ha,fun _ _ => rfl⟩⟩
  | dropped t₁ va dropped =>
    rw [va]
    have hno : ¬ (applyWriteSet us tx.rwset ⟨num,tx.indexInBlock⟩ db).Undisturbed fault t₁ := by
      intro hq
      rw [run_undisturbed hq] at dropped
      exact absurd (congrArg Prod.fst dropped) apply_write_set_read
    constructor
    · rintro ⟨u,ha,hs⟩
      refine .inr fun ck => ?_
      by_contra ho
      obtain ⟨os,ho⟩ := ne_none_iff_exists'.mp ho
      obtain ⟨vv,hvv,hv⟩ := written_version ho ha
      have hb := (he ck.space ck.key vv (hs ck.space ck.key ▸ hvv)).2
      rw [hv] at hb
      exact lt_irrefl _ hb
    · rintro (hq | hn)
      · exact absurd hq hno
      rcases apply_write_set_result us tx.rwset ⟨num,tx.indexInBlock⟩ db with
        ⟨_,ck,os,ho,_⟩ | ⟨u,hok,_,hg⟩
      · rw [hn ck] at ho
        cases ho
      refine ⟨u,hok,fun s k => ?_⟩
      rw [hg,written]
      cases s.compositeKey k <;> simp [hn]

theorem Processed.below (h : Processed H db fault doMVCCValidation num tx us t co u' t')
    (below : us.Below num tx.indexInBlock) (hlt : tx.indexInBlock < index) :
    u'.Below num index := by
  have hs : us.Below num index := fun s k vv hvv =>
    ⟨(below s k vv hvv).1,(below s k vv hvv).2.trans hlt⟩
  cases h with
  | invalid | dropped => exact hs
  | applied _ _ applied => exact below.apply (run_ok applied).2 hlt

theorem turns_reflected (h : validateTxs H db fault doMVCCValidation num ts us t = .ok (f,codes))
    (he : (ts.map Transaction.indexInBlock).Pairwise (· < ·))
    (hd : ∀ tx ∈ ts, us.Below num tx.indexInBlock) :
    (∀ tu ∈ turns H db fault doMVCCValidation num ts us t, tu.code = .valid →
      (tu.Reflected db num ↔ tu.Undisturbed db fault num)) ∧
    ((∀ tu ∈ turns H db fault doMVCCValidation num ts us t, tu.code = .valid →
      tu.Reflected db num) → Replays db num us (ts.zip codes) f) ∧
    (turns H db fault doMVCCValidation num ts us t).map Turn.code = codes := by
  induction ts generalizing us t f codes with
  | nil =>
    cases h
    exact ⟨forall_mem_nil _,fun _ => .nil,rfl⟩
  | cons tx ts ih =>
    obtain ⟨⟨co,u',t'⟩,hou,h⟩ := bind_ok.mp h
    obtain ⟨⟨f,codes⟩,hre,h⟩ := bind_ok.mp h
    cases h
    have hp := process_tx_processed hou
    obtain ⟨hlt,he⟩ := pairwise_cons.mp he
    have hb := hd tx mem_cons_self
    obtain ⟨hi,hr,hc⟩ := ih hre he fun tx' htx' =>
      hp.below hb (hlt _ (List.mem_map_of_mem htx'))
    rw [turns,hou,zip_cons_cons,map_cons,forall_mem_cons,forall_mem_cons,hc]
    refine ⟨⟨?_,hi⟩,?_,rfl⟩
    · rintro hv
      subst hv
      exact turn_reflected_iff hp hb
    rintro ⟨hf,ho⟩
    by_cases hv : co = .valid
    · subst hv
      obtain ⟨u,ha,hs⟩ := hf rfl
      exact .apply ha hs (hr ho)
    cases hp with
    | invalid => exact .skip hv (hr ho)
    | applied | dropped => exact absurd rfl hv

end

def Block.turns (H : HashFunc) (db : Db) (fault : Nat → Bool) (doMVCCValidation : Bool)
    (blk : Block) : List Turn :=
  Txmgmt.turns H db fault doMVCCValidation blk.num blk.txs ∅
    ((preLoad db blk).run fault .database 0).2

def annotatedBlock : Block where
  num := 1
  txs := [⟨0,⟨[⟨[97],⟨[],[],[⟨[1],false,[2]⟩],[]⟩,[]⟩]⟩⟩]
  indexed := by decide

def annotatedDb : Db := { emptyDb with metadataEverUsedFor := fun _ => true, hinted := fun _ _ => rfl }

end PluggableHcs.Txmgmt
