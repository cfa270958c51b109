import Mathlib.Algebra.Group.Nat.Defs
import Mathlib.Data.List.Basic
import Mathlib.Logic.Function.Iterate

namespace PluggableHcs.Gossip
open Option

abbrev Bytes := List UInt8

def maxUint64 : UInt64 := 0xffffffffffffffff

structure RemoteStateRequest where
  startSeqNum : UInt64
  endSeqNum : UInt64

open RemoteStateRequest

/-- stateRequestValidator.validate. The sum of the batch size and the start may wrap. -/
def RemoteStateRequest.validate (request : RemoteStateRequest) (batchSize : UInt64) : Bool :=
  !(request.endSeqNum < request.startSeqNum) &&
    !(batchSize + request.startSeqNum < request.endSeqNum)

/-- The sign of the difference chooses one of the two. -/
protected def min (a b : UInt64) : UInt64 := b ^^^ ((a ^^^ b) &&& -((a - b) >>> 63))

section
variable {β π : Type}

/-- The blocks of the ledger with the private data that the asking peer may have, and the numbers
under which the storage fails. -/
structure Ledger (β π : Type) where
  blocks : List (β × Option π)
  unreadable : UInt64 → Bool
  fits : blocks.length < 2 ^ 64

namespace Ledger

def height (l : Ledger β π) : UInt64 := UInt64.ofNat l.blocks.length

/-- The highest number stands for the last block. -/
def retrieveBlockByNumber (l : Ledger β π) (blockNum : UInt64) : Option β :=
  (if blockNum = maxUint64 then l.blocks.getLast? else l.blocks[blockNum.toNat]?).map Prod.fst

def getPvtDataByBlockNum (l : Ledger β π) (blockNum : UInt64) : Option (Option π) :=
  l.blocks[blockNum.toNat]?.map Prod.snd

def getPvtDataAndBlockByNum (l : Ledger β π) (blockNum : UInt64) : Option (β × Option π) := do
  guard (!l.unreadable blockNum)
  let block ← l.retrieveBlockByNumber blockNum
  let pvtData ← l.getPvtDataByBlockNum blockNum
  pure (block,pvtData)

end Ledger

structure Payload where
  seqNum : UInt64
  data : Bytes
  privateData : Option (List Bytes)

variable (marshal : β → Option Bytes) (marshalPvt : π → Option (List Bytes))

def payloadOf (l : Ledger β π) (seqNum : UInt64) : Option Payload := do
  let (block,pvtData) ← l.getPvtDataAndBlockByNum seqNum
  let blockBytes ← marshal block
  match pvtData with
  | none => pure ⟨seqNum,blockBytes,none⟩
  | some pvtData =>
    let pvtBytes ← marshalPvt pvtData
    pure ⟨seqNum,blockBytes,some pvtBytes⟩

structure Serving where
  seqNum : UInt64
  reads : Nat
  payloads : List Payload

variable (ledgers : Nat → Ledger β π)

def Serving.step (s : Serving) : Serving where
  seqNum := s.seqNum + 1
  reads := s.reads + 1
  payloads := s.payloads ++ (payloadOf marshal marshalPvt (ledgers (s.reads + 1)) s.seqNum).toList

/-- At most as many rounds as there is fuel; nothing comes out of a loop that is not done. -/
def serve (endSeqNum : UInt64) : Nat → Serving → Option Serving
  | 0,s => if s.seqNum ≤ endSeqNum then none else some s
  | fuel + 1,s =>
    if s.seqNum ≤ endSeqNum then serve endSeqNum fuel (s.step marshal marshalPvt ledgers) else some s

/-- What became of a request. Without a response it was ignored. -/
structure Handled where
  reads : Nat
  response : Option (List Payload)

/-- The ledger grows while the request is served: it is asked for its height first and then for
block after block. -/
def handleStateRequest (request : RemoteStateRequest) (batchSize : UInt64) (heightFails : Bool)
    (fuel : Nat) : Option Handled :=
  if request.validate batchSize && !heightFails then
    let endSeqNum := Gossip.min (ledgers 0).height request.endSeqNum
    (serve marshal marshalPvt ledgers endSeqNum fuel ⟨request.startSeqNum,0,[]⟩).map
      fun s => ⟨s.reads,some s.payloads⟩
  else some ⟨0,none⟩

end

variable {β π : Type} {marshal : β → Option Bytes} {marshalPvt : π → Option (List Bytes)}
  {ledgers : Nat → Ledger β π} {a b : UInt64}

theorem min_eq (a b : UInt64) : Gossip.min a b = if 2 ^ 63 ≤ (a - b).toNat then a else b := by
  have hlt := (a - b).toNat_lt
  have hs : ((a - b) >>> 63).toNat = (a - b).toNat / 2 ^ 63 := by
    rw [UInt64.toNat_shiftRight,Nat.shiftRight_eq_div_pow]
    rfl
  unfold Gossip.min
  split
  · rename_i hle
    have ho : (a - b) >>> 63 = 1 := by
      apply UInt64.toNat_inj.mp
      change _ = 1
      omega
    have hon : -(1 : UInt64) = -1 := rfl
    rw [ho,hon,UInt64.and_neg_one,UInt64.xor_comm a b,← UInt64.xor_assoc,UInt64.xor_self,
      UInt64.zero_xor]
  · rename_i hlt'
    have hz : (a - b) >>> 63 = 0 := by
      apply UInt64.toNat_inj.mp
      change _ = 0
      omega
    rw [hz,UInt64.neg_zero,UInt64.and_zero,UInt64.xor_zero]

theorem min_le (h : a.toNat < b.toNat + 2 ^ 63) : (Gossip.min a b).toNat ≤ b.toNat := by
  rw [min_eq]
  split
  · rename_i hle
    by_contra hlt
    have hba : b ≤ a := UInt64.le_iff_toNat_le.mpr (by omega)
    rw [UInt64.toNat_sub_of_le _ _ hba] at hle
    omega
  · exact Nat.le_refl _

theorem min_far (h : b.toNat + 2 ^ 63 ≤ a.toNat) : Gossip.min a b = a := by
  rw [min_eq,if_pos]
  rw [UInt64.toNat_sub_of_le _ _ (UInt64.le_iff_toNat_le.mpr (by omega))]
  omega

theorem validate_span {re : RemoteStateRequest} {bs : UInt64} (h : re.validate bs = true) :
    re.endSeqNum.toNat ≤ re.startSeqNum.toNat + bs.toNat := by
  unfold validate at h
  rw [Bool.and_eq_true,Bool.not_eq_true',Bool.not_eq_true',decide_eq_false_iff_not,
    decide_eq_false_iff_not,UInt64.lt_iff_toNat_lt,UInt64.lt_iff_toNat_lt,UInt64.toNat_add] at h
  omega

theorem payload_read (h : payloadOf marshal marshalPvt l n = some p) :
    p.seqNum = n ∧ p.seqNum < l.height := by
  obtain ⟨⟨bl,pd⟩,hr,h⟩ := bind_eq_some_iff.mp h
  obtain ⟨_,_,hr⟩ := bind_eq_some_iff.mp hr
  obtain ⟨_,_,hr⟩ := bind_eq_some_iff.mp hr
  obtain ⟨_,hp,_⟩ := bind_eq_some_iff.mp hr
  obtain ⟨_,hg,_⟩ := map_eq_some_iff.mp hp
  have hlt := (List.getElem?_eq_some_iff.mp hg).1
  have hh : n < l.height := by
    rw [UInt64.lt_iff_toNat_lt,Ledger.height,UInt64.toNat_ofNat_of_lt' l.fits]
    exact hlt
  obtain ⟨bb,_,h⟩ := bind_eq_some_iff.mp h
  cases pd with
  | none =>
    cases h
    exact ⟨rfl,hh⟩
  | some pd =>
    obtain ⟨pb,_,h⟩ := bind_eq_some_iff.mp h
    cases h
    exact ⟨rfl,hh⟩

theorem max_toNat (h : a ≠ maxUint64) : a.toNat + 1 < 2 ^ 64 := by
  have hm : a.toNat ≠ 2 ^ 64 - 1 := fun he => h (UInt64.toNat_inj.mp he)
  have hlt := a.toNat_lt
  omega

theorem succ_toNat (h : a.toNat + 1 < 2 ^ 64) : (a + 1).toNat = a.toNat + 1 := by
  change (a.toNat + 1) % 2 ^ 64 = _
  omega

section
variable (marshal : β → Option Bytes) (marshalPvt : π → Option (List Bytes))
  (ledgers : Nat → Ledger β π)

/-- A loop that does not end at the highest number makes one round for each number up to its end. -/
theorem serve_rounds {hi : UInt64} (hn : hi ≠ maxUint64) (f : Nat) (s : Serving) :
    serve marshal marshalPvt ledgers hi f s = if hi.toNat + 1 ≤ s.seqNum.toNat + f then
      some ((Serving.step marshal marshalPvt ledgers)^[hi.toNat + 1 - s.seqNum.toNat] s) else none := by
  have hm := max_toNat hn
  induction f generalizing s with
  | zero =>
    rw [serve]
    by_cases hhi : s.seqNum ≤ hi
    · have hle := UInt64.le_iff_toNat_le.mp hhi
      rw [if_pos hhi,if_neg (by omega)]
    · rw [if_neg hhi]
      rw [UInt64.le_iff_toNat_le] at hhi
      rw [if_pos (by omega),show hi.toNat + 1 - s.seqNum.toNat = 0 by omega]
      rfl
  | succ f ih =>
    rw [serve]
    by_cases hhi : s.seqNum ≤ hi
    · have hle := UInt64.le_iff_toNat_le.mp hhi
      have he : (s.step marshal marshalPvt ledgers).seqNum.toNat = s.seqNum.toNat + 1 :=
        succ_toNat (by omega)
      rw [if_pos hhi,ih,he,Nat.add_assoc,Nat.add_comm 1,
        show hi.toNat + 1 - s.seqNum.toNat = hi.toNat + 1 - (s.seqNum.toNat + 1) + 1 by omega,
        Function.iterate_succ_apply]
    · rw [if_neg hhi]
      rw [UInt64.le_iff_toNat_le] at hhi
      rw [if_pos (by omega),show hi.toNat + 1 - s.seqNum.toNat = 0 by omega]
      rfl

/-- What the rounds leave behind: a read for each, and the payloads of the numbers passed. -/
theorem rounds_served (s : Serving) {n : Nat} (fits : s.seqNum.toNat + n < 2 ^ 64) :
    let s' := (Serving.step marshal marshalPvt ledgers)^[n] s
    s'.seqNum.toNat = s.seqNum.toNat + n ∧ s'.reads = s.reads + n ∧
      ∀ p, p ∈ s'.payloads ↔ p ∈ s.payloads ∨ ∃ k : UInt64, s.seqNum ≤ k ∧
        k.toNat < s.seqNum.toNat + n ∧ payloadOf marshal marshalPvt
          (ledgers (s.reads + (k.toNat - s.seqNum.toNat) + 1)) k = some p := by
  induction n with
  | zero =>
    refine ⟨rfl,rfl,fun p => (or_iff_left ?_).symm⟩
    rintro ⟨k,hk,hlt,_⟩
    rw [UInt64.le_iff_toNat_le] at hk
    omega
  | succ n ih =>
    obtain ⟨hseq,hreads,hpay⟩ := ih (by omega)
    rw [Function.iterate_succ_apply']
    refine ⟨?_,by rw [Serving.step,hreads]; rfl,fun p => ?_⟩
    · rw [Serving.step]
      dsimp only
      rw [succ_toNat (by omega),hseq]
      rfl
    rw [Serving.step,List.mem_append,hpay]
    constructor
    · rintro ((hp | ⟨k,hk,hlt,hp⟩) | hp)
      · exact .inl hp
      · exact .inr ⟨k,hk,by omega,hp⟩
      · refine .inr ⟨((Serving.step marshal marshalPvt ledgers)^[n] s).seqNum,
          UInt64.le_iff_toNat_le.mpr (by omega),by omega,?_⟩
        rw [hseq,show s.seqNum.toNat + n - s.seqNum.toNat = n by omega,← hreads]
        exact mem_toList.mp hp
    · rintro (hp | ⟨k,hk,hlt,hp⟩)
      · exact .inl (.inl hp)
      by_cases he : k.toNat < s.seqNum.toNat + n
      · exact .inl (.inr ⟨k,hk,he,hp⟩)
      · right
        have hkn : k = ((Serving.step marshal marshalPvt ledgers)^[n] s).seqNum :=
          UInt64.toNat_inj.mp (by omega)
        rw [show k.toNat - s.seqNum.toNat = n by omega,← hreads,hkn] at hp
        exact mem_toList.mpr hp

theorem rounds_bounded {start hi : UInt64} (he : hi ≠ maxUint64) {batch : Nat}
    (within : hi.toNat + 1 ≤ start.toNat + (batch + 1)) (last : UInt64) :
    (∃ handled, (some ((Serving.step marshal marshalPvt ledgers)^[hi.toNat + 1 - start.toNat]
        ⟨start,0,[]⟩)).map (fun s => (⟨s.reads,some s.payloads⟩ : Handled)) = some handled ∧
      handled.reads ≤ batch + 1 ∧ ∀ response, handled.response = some response → ∀ p ∈ response,
        start ≤ p.seqNum ∧ p.seqNum ≤ last ∧ ∃ i ≤ handled.reads, p.seqNum < (ledgers i).height) ↔
    ∀ k, start ≤ k → k ≤ hi →
      payloadOf marshal marshalPvt (ledgers (k.toNat - start.toNat + 1)) k ≠ none → k ≤ last := by
  have hm := max_toNat he
  have hs := start.toNat_lt
  have fits : start.toNat + (hi.toNat + 1 - start.toNat) < 2 ^ 64 := by omega
  obtain ⟨_,hreads,hpay⟩ := rounds_served marshal marshalPvt ledgers ⟨start,0,[]⟩ fits
  dsimp only at hreads hpay
  simp only [Nat.zero_add] at hreads hpay
  generalize (Serving.step marshal marshalPvt ledgers)^[hi.toNat + 1 - start.toNat]
    ⟨start,0,[]⟩ = final at hreads hpay
  constructor
  · rintro ⟨_,⟨⟩,_,h⟩ k hlo hhi hk
    obtain ⟨p,hp⟩ := ne_none_iff_exists'.mp hk
    rw [UInt64.le_iff_toNat_le] at hhi
    have hle := UInt64.le_iff_toNat_le.mp hlo
    obtain ⟨_,hlast,_⟩ := h _ rfl p ((hpay p).mpr (.inr ⟨k,hlo,by omega,hp⟩))
    rwa [(payload_read hp).1] at hlast
  · intro h
    refine ⟨⟨final.reads,some final.payloads⟩,rfl,by dsimp only; omega,?_⟩
    rintro _ ⟨⟩ p hp
    obtain hp | ⟨k,hlo,hlt,hp⟩ := (hpay p).mp hp
    · cases hp
    obtain ⟨rfl,hh⟩ := payload_read hp
    have hle := UInt64.le_iff_toNat_le.mp hlo
    exact ⟨hlo,h _ hlo (UInt64.le_iff_toNat_le.mpr (by omega)) (by simp [hp]),_,
      by dsimp only; omega,hh⟩

/-- The range that is served does not end at the highest number. The height is not taken for the
lower one, or the range up to it is within the batch and nothing comes of it after the request's. -/
def RemoteStateRequest.Contained (request : RemoteStateRequest) (batchSize : UInt64) : Prop :=
  Gossip.min (ledgers 0).height request.endSeqNum ≠ maxUint64 ∧
    ((ledgers 0).height.toNat < request.endSeqNum.toNat + 2 ^ 63 ∨
      (ledgers 0).height.toNat ≤ request.startSeqNum.toNat + batchSize.toNat ∧
      ∀ k, request.endSeqNum < k → k ≤ (ledgers 0).height → payloadOf marshal marshalPvt
        (ledgers (k.toNat - request.startSeqNum.toNat + 1)) k = none)

theorem serve_endless (f : Nat) (s : Serving) :
    serve marshal marshalPvt ledgers maxUint64 f s = none := by
  have hle (s : Serving) : s.seqNum ≤ maxUint64 := Nat.le_of_lt_succ s.seqNum.toNat_lt
  induction f generalizing s with
  | zero => exact if_pos (hle s)
  | succ f ih =>
    rw [serve,if_pos (hle s)]
    exact ih _

/-- The work for a request is bounded exactly if it is refused or contained. -/
theorem state_request_bounded (request : RemoteStateRequest) (batchSize : UInt64)
    (heightFails : Bool) :
    (∃ handled, handleStateRequest marshal marshalPvt ledgers request batchSize heightFails
        (batchSize.toNat + 1) = some handled ∧
      handled.reads ≤ batchSize.toNat + 1 ∧
      ∀ response, handled.response = some response → ∀ p ∈ response,
        request.startSeqNum ≤ p.seqNum ∧ p.seqNum ≤ request.endSeqNum ∧
          ∃ i ≤ handled.reads, p.seqNum < (ledgers i).height) ↔
    ((request.validate batchSize && !heightFails) = true →
      request.Contained marshal marshalPvt ledgers batchSize) := by
  unfold handleStateRequest
  by_cases hv : (request.validate batchSize && !heightFails) = true
  · rw [if_pos hv,forall_prop_of_true hv]
    have hsp := validate_span (Bool.and_eq_true_iff.mp hv).1
    dsimp only
    generalize hend : Gossip.min (ledgers 0).height request.endSeqNum = hi
    by_cases hmax : hi = maxUint64
    · subst hmax
      rw [serve_endless]
      exact iff_of_false (by simp) fun h => h.1 hend
    have hse := (Bool.and_eq_true_iff.mp (Bool.and_eq_true_iff.mp hv).1).1
    rw [Bool.not_eq_true',decide_eq_false_iff_not,UInt64.lt_iff_toNat_lt] at hse
    rw [serve_rounds marshal marshalPvt ledgers hmax,RemoteStateRequest.Contained,hend,
      and_iff_right hmax]
    by_cases hfar : (ledgers 0).height.toNat < request.endSeqNum.toNat + 2 ^ 63
    · have hm := min_le hfar
      rw [hend] at hm
      have hw : hi.toNat + 1 ≤ request.startSeqNum.toNat + (batchSize.toNat + 1) := by omega
      rw [if_pos hw,rounds_bounded marshal marshalPvt ledgers hmax hw]
      refine iff_of_true (fun k _ hk _ => ?_) (.inl hfar)
      exact UInt64.le_trans hk (UInt64.le_iff_toNat_le.mpr hm)
    rw [or_iff_right hfar]
    have hh := hend.symm.trans (min_far (Nat.le_of_not_lt hfar))
    rw [← hh]
    by_cases hw : hi.toNat + 1 ≤ request.startSeqNum.toNat + (batchSize.toNat + 1)
    · rw [if_pos hw,rounds_bounded marshal marshalPvt ledgers hmax hw,and_iff_right (by omega)]
      constructor
      · intro h k hk hhi
        by_contra hn
        have hlo : request.startSeqNum ≤ k := by
          rw [UInt64.lt_iff_toNat_lt] at hk
          rw [UInt64.le_iff_toNat_le]
          omega
        exact absurd hk (UInt64.not_lt.mpr (h k hlo hhi hn))
      · intro h k _ hhi hn
        by_contra hk
        exact hn (h k (UInt64.not_le.mp hk) hhi)
    · rw [if_neg hw]
      exact iff_of_false (by simp) fun h => hw (by omega)
  · rw [if_neg hv]
    exact iff_of_true ⟨_,rfl,Nat.zero_le _,nofun⟩ fun h => absurd h hv

end

def threeBlocks : Ledger Bytes Bytes := ⟨[([1],none),([2],some [5]),([3],none)],fun _ => false,by decide⟩

theorem three_blocks_bounded :
    ∃ handled, handleStateRequest some (fun p => some [p]) (fun _ => threeBlocks) ⟨1,4⟩ 10 false
        ((10 : UInt64).toNat + 1) = some handled ∧
      handled.reads ≤ (10 : UInt64).toNat + 1 ∧
      ∀ response, handled.response = some response → ∀ p ∈ response,
        (1 : UInt64) ≤ p.seqNum ∧ p.seqNum ≤ 4 ∧
          ∃ i ≤ handled.reads, p.seqNum < threeBlocks.height :=
  (state_request_bounded some (fun p => some [p]) (fun _ => threeBlocks) ⟨1,4⟩ 10 false).mpr
    fun _ => ⟨by decide,.inl (by decide)⟩

/-- A request of eleven blocks up to the highest number is accepted and never done. -/
theorem endless_request : validate ⟨maxUint64 - 10,maxUint64⟩ 10 = true ∧
    ∀ fuel, handleStateRequest some (fun p => some [p]) (fun _ => threeBlocks)
      ⟨maxUint64 - 10,maxUint64⟩ 10 false fuel = none := by
  refine ⟨by decide,fun fuel => ?_⟩
  have hv : (validate ⟨maxUint64 - 10,maxUint64⟩ 10 && !false) = true := by
    decide
  have hm : Gossip.min threeBlocks.height maxUint64 = maxUint64 := by decide
  rw [handleStateRequest,if_pos hv]
  dsimp only
  rw [hm,serve_endless]
  rfl

end PluggableHcs.Gossip
