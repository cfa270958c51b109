import PluggableHcs.Lib.Crashes
import PluggableHcs.Txmgmt.RwSet

namespace PluggableHcs.Protoutil
open Crashes Outcomes Txmgmt

-- A bytes field that some code compares with nil is an Option; unmarshalling reads nil as empty.
structure ChannelHeader where
  type : Int
  channelId : Bytes
  txId : Bytes
  epoch : Nat
  extension : Option Bytes

structure SignatureHeader where
  creator : Bytes
  nonce : Bytes

structure Header where
  channelHeader : Option Bytes
  signatureHeader : Option Bytes

structure Payload where
  header : Option Header
  data : Option Bytes

structure Envelope where
  payload : Option Bytes
  signature : Option Bytes

structure TransactionAction where
  header : Option Bytes
  payload : Option Bytes

structure Transaction where
  actions : List TransactionAction

structure Endorsement where
  endorser : Bytes
  signature : Bytes
deriving DecidableEq

structure ChaincodeEndorsedAction where
  proposalResponsePayload : Option Bytes
  endorsements : List Endorsement

structure ChaincodeActionPayload where
  chaincodeProposalPayload : Option Bytes
  action : Option ChaincodeEndorsedAction

structure ProposalResponsePayload where
  proposalHash : Bytes
  extension : Option Bytes

structure ChaincodeID where
  name : Bytes
  version : Bytes

structure ChaincodeAction where
  results : Bytes
  events : Option Bytes
  chaincodeId : Option ChaincodeID

structure ChaincodeHeaderExtension where
  chaincodeId : Option ChaincodeID

structure ChaincodeEvent where
  chaincodeId : Bytes

/-- HeaderType_CONFIG, and the other types of the channel header that the validation names. -/
def config : Int := 1
def configUpdate : Int := 2
def endorserTransaction : Int := 3

/-- proto.Unmarshal at each message type: any subset of the sub-messages may come out. -/
structure Decoders where
  envelope : Bytes → Option Envelope
  payload : Bytes → Option Payload
  channelHeader : Bytes → Option ChannelHeader
  signatureHeader : Bytes → Option SignatureHeader
  headerExtension : Bytes → Option ChaincodeHeaderExtension
  transaction : Bytes → Option Transaction
  actionPayload : Bytes → Option ChaincodeActionPayload
  responsePayload : Bytes → Option ProposalResponsePayload
  action : Bytes → Option ChaincodeAction
  event : Bytes → Option ChaincodeEvent
  rwset : Bytes → Option TxRwSet

section
variable {α : Type}

def unmarshal (decode : Bytes → Option α) (what : String) (bytes : Option Bytes) :
    Except (Stop String) α :=
  match decode (bytes.getD []) with
  | some a => .ok a
  | none => fail ("error unmarshaling " ++ what)

theorem unmarshal_ok {bs : Option Bytes} :
    unmarshal decode wh bs = .ok a ↔ decode (bs.getD []) = some a := by
  unfold unmarshal
  cases decode (bs.getD []) with
  | none => exact ⟨fun h => (by cases h),fun h => (by cases h)⟩
  | some b => exact ⟨fun h => (by cases h; rfl),fun h => (by cases h; rfl)⟩

theorem safe_unmarshal (de : Bytes → Option α) (wh : String) (bs : Option Bytes) :
    Safe (unmarshal de wh bs) := by
  unfold unmarshal
  cases de (bs.getD []) with
  | none => exact safe_fail _
  | some a => exact safe_ok a

theorem unmarshal_then (h : ∀ a, decode (bytes.getD []) = some a → Safe (f a)) :
    Safe (unmarshal decode wh bytes >>= f) :=
  safe_bind (safe_unmarshal decode wh bytes) fun a ha => h a (unmarshal_ok.mp ha)

end

namespace Decoders
variable (D : Decoders)

def getEnvelopeFromBlock (data : Bytes) : Except (Stop String) Envelope :=
  unmarshal D.envelope "Envelope" (some data)

def getPayloads (txActions : TransactionAction) :
    Except (Stop String) (ChaincodeActionPayload × ChaincodeAction) := do
  let ccPayload ← unmarshal D.actionPayload "ChaincodeActionPayload" txActions.payload
  match ccPayload.action with
  | none => fail "no payload in ChaincodeActionPayload"
  | some action =>
    require action.proposalResponsePayload.isSome "no payload in ChaincodeActionPayload"
    let pRespPayload ←
      unmarshal D.responsePayload "ProposalResponsePayload" action.proposalResponsePayload
    require pRespPayload.extension.isSome "response payload is missing extension"
    let respPayload ← unmarshal D.action "ChaincodeAction" pRespPayload.extension
    pure (ccPayload,respPayload)

def getActionFromEnvelopeMsg (env : Envelope) : Except (Stop String) ChaincodeAction := do
  let payl ← unmarshal D.payload "Payload" env.payload
  let tx ← unmarshal D.transaction "Transaction" payl.data
  require (tx.actions.length ≠ 0) "at least one TransactionAction required"
  let first ← index tx.actions 0
  let (_,respPayload) ← D.getPayloads first
  pure respPayload

def getActionFromEnvelope (envBytes : Bytes) : Except (Stop String) ChaincodeAction := do
  let env ← D.getEnvelopeFromBlock envBytes
  D.getActionFromEnvelopeMsg env

variable {D}

theorem safe_get_payloads (a1 : TransactionAction) : Safe (D.getPayloads a1) := by
  refine unmarshal_then fun cp _ => ?_
  cases cp.action with
  | none => exact safe_fail _
  | some an =>
    refine require_then fun _ => ?_
    refine unmarshal_then fun _ _ => ?_
    refine require_then fun _ => ?_
    exact unmarshal_then fun _ _ => safe_pure _

theorem safe_get_action (eb : Bytes) : Safe (D.getActionFromEnvelope eb) := by
  refine unmarshal_then fun en _ => ?_
  refine unmarshal_then fun pa _ => ?_
  refine unmarshal_then fun tx _ => ?_
  refine require_then fun hne => ?_
  refine safe_bind (safe_index (Nat.pos_of_ne_zero hne)) fun first _ => ?_
  exact safe_bind (safe_get_payloads first) fun _ _ => safe_pure _

structure Walked (D : Decoders) (envBytes : Bytes) (env : Envelope) (payl : Payload)
    (tx : Transaction) (first : TransactionAction) (cap : ChaincodeActionPayload) : Prop where
  envelope : D.envelope envBytes = some env
  payload : D.payload (env.payload.getD []) = some payl
  transaction : D.transaction (payl.data.getD []) = some tx
  actions : tx.actions[0]? = some first
  actionPayload : D.actionPayload (first.payload.getD []) = some cap
  action : cap.action.isSome

theorem get_payloads_action (h : D.getPayloads act = .ok out) :
    D.actionPayload (act.payload.getD []) = some out.1 ∧ out.1.action.isSome := by
  obtain ⟨ca,hc,h⟩ := bind_ok.mp h
  cases ha : ca.action with
  | none =>
    rw [ha] at h
    cases h
  | some an =>
    rw [ha] at h
    obtain ⟨_,_,h⟩ := bind_ok.mp h
    obtain ⟨_,_,h⟩ := bind_ok.mp h
    obtain ⟨_,_,h⟩ := bind_ok.mp h
    obtain ⟨_,_,h⟩ := bind_ok.mp h
    cases h
    exact ⟨unmarshal_ok.mp hc,by rw [ha]; rfl⟩

theorem get_action_walked (h : D.getActionFromEnvelope eb = .ok act) :
    ∃ en pa tx first cap, Walked D eb en pa tx first cap := by
  obtain ⟨en,he,h⟩ := bind_ok.mp h
  obtain ⟨pa,hp,h⟩ := bind_ok.mp h
  obtain ⟨tx,htx,h⟩ := bind_ok.mp h
  obtain ⟨_,_,h⟩ := bind_ok.mp h
  obtain ⟨first,hf,h⟩ := bind_ok.mp h
  obtain ⟨o,ho,_⟩ := bind_ok.mp h
  obtain ⟨hc,ha⟩ := get_payloads_action ho
  exact ⟨en,pa,tx,first,o.1,unmarshal_ok.mp he,unmarshal_ok.mp hp,unmarshal_ok.mp htx,
    index_ok.mp hf,hc,ha⟩

end Decoders
end PluggableHcs.Protoutil
