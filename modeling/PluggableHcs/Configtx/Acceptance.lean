import PluggableHcs.Configtx.Validator

namespace PluggableHcs.Configtx
open Trees AList Outcomes Maps

variable {μ : Type} {d : Decoders} {p : PolicyManagers μ} {vi : Validator μ}
  {env : ConfigUpdateEnvelope} {m readSet writeSet : ConfigMap} {signedData : List SignedData}

theorem verify_read_set_ok : verifyReadSet cm readSet = .ok () ↔
    ∀ ke va, readSet.lookup ke = some va →
      ∃ ex, cm.lookup ke = some ex ∧ ex.version = va.version := by
  rw [verifyReadSet,for_ok,← forall_entries]
  refine forall_congr' fun e => imp_congr_right fun _ => ?_
  cases cm.lookup e.1 with
  | none => simp
  | some ex => simp

theorem delta_set_lookup {ke : Chars} {va : Comparable} :
    (computeDeltaSet readSet writeSet).lookup ke = some va ↔ writeSet.lookup ke = some va ∧
        ∀ rv, readSet.lookup ke = some rv → rv.version ≠ va.version := by
  rw [computeDeltaSet,lookup_without]
  refine and_congr_right fun _ => ?_
  cases readSet.lookup ke with
  | none => simp
  | some rv => simp

/-- What verifyDelta asks of an entry of the delta set. -/
structure Validator.DeltaOk (p : PolicyManagers μ) (vi : Validator μ) (signedData : List SignedData)
    (key : Chars) (value : Comparable) : Prop where
  modPolicy : validateModPolicy value.modPolicy = .ok ()
  fresh : vi.configMap.lookup key = none → value.version = 0
  raised : ∀ existing, vi.configMap.lookup key = some existing →
    value.version = existing.version + 1 ∧
      ∃ policy, vi.policyForItem p existing = some policy ∧ policy signedData = true

theorem verify_delta_ok {ke : Chars} {value : Comparable} :
    vi.verifyDelta p signedData ke value = .ok () ↔ vi.DeltaOk p signedData ke value := by
  have hs : vi.DeltaOk p signedData ke value ↔ validateModPolicy value.modPolicy = .ok () ∧
      (vi.configMap.lookup ke = none → value.version = 0) ∧
      ∀ ex, vi.configMap.lookup ke = some ex → value.version = ex.version + 1 ∧
          ∃ po, vi.policyForItem p ex = some po ∧ po signedData = true :=
    ⟨fun h => ⟨h.modPolicy,h.fresh,h.raised⟩,fun h => ⟨h.1,h.2.1,h.2.2⟩⟩
  rw [hs,Validator.verifyDelta]
  cases validateModPolicy value.modPolicy with
  | error er => simp
  | ok u =>
    cases vi.configMap.lookup ke with
    | none => simp
    | some ex =>
      by_cases hv : value.version = ex.version + 1
      · cases hp : vi.policyForItem p ex with
        | none | some po => simp [hv,hp]
      · simp [hv]

structure Validator.Accepts (d : Decoders) (p : PolicyManagers μ) (vi : Validator μ)
    (env : ConfigUpdateEnvelope) (u : ConfigUpdate) (readSet writeSet : ConfigMap)
    (signedData : List SignedData) : Prop where
  decoded : d.unmarshalConfigUpdate env.configUpdate = some u
  channel : u.channelId = vi.channelID
  read : mapConfig u.readSet vi.rootGroupKey = .ok readSet
  current : ∀ key value, readSet.lookup key = some value →
    ∃ existing, vi.configMap.lookup key = some existing ∧ existing.version = value.version
  write : mapConfig u.writeSet vi.rootGroupKey = .ok writeSet
  signed : configUpdateEnvelopeAsSignedData d env = some signedData
  effect : ∃ key value, (computeDeltaSet readSet writeSet).lookup key = some value
  checked : ∀ key value, (computeDeltaSet readSet writeSet).lookup key = some value →
    vi.DeltaOk p signedData key value

theorem entries_ne_nil : m.entries ≠ [] ↔ ∃ ke value, m.lookup ke = some value := by
  rw [List.ne_nil_iff_exists_cons]
  constructor
  · rintro ⟨e,l,h⟩
    refine ⟨e.1,e.2,mem_lookup_iff.mpr ?_⟩
    rw [h]
    exact List.mem_cons_self
  · rintro ⟨ke,value,h⟩
    have hme := mem_lookup_iff.mp h
    cases hm : m.entries with
    | nil =>
      rw [hm] at hme
      cases hme
    | cons e l => exact ⟨e,l,rfl⟩

theorem verify_delta_set_ok : vi.verifyDeltaSet p deltaSet signedData = .ok () ↔
      (∃ ke value, deltaSet.lookup ke = some value) ∧
        ∀ ke value, deltaSet.lookup ke = some value → vi.DeltaOk p signedData ke value := by
  rw [← entries_ne_nil,← forall_entries,Validator.verifyDeltaSet]
  by_cases h : deltaSet.entries = []
  · simp [h]
  · rw [if_neg h,for_ok]
    simp [h,verify_delta_ok]

/-- The last check never fails: what the write set has is in the delta set or, as it is in the read
set, in the current config. -/
theorem verify_full_ok (hc : ∀ ke value, readSet.lookup ke = some value →
      ∃ ex, vi.configMap.lookup ke = some ex ∧ ex.version = value.version) :
    verifyFullProposedConfig writeSet
      (vi.computeUpdateResult (computeDeltaSet readSet writeSet)) = .ok () := by
  rw [verifyFullProposedConfig,for_ok]
  rintro ⟨ke,value⟩ he
  have hv : writeSet.lookup ke = some value := mem_lookup_iff.mpr he
  rw [if_pos]
  rw [lookup_isSome,Validator.computeUpdateResult,mem_union]
  by_cases hd : (computeDeltaSet readSet writeSet).lookup ke = some value
  · left
    rw [← lookup_isSome,hd]
    rfl
  · right
    rw [delta_set_lookup,not_and] at hd
    have hr := hd hv
    push Not at hr
    obtain ⟨rv,hre,_⟩ := hr
    obtain ⟨ex,hex,_⟩ := hc ke rv hre
    rw [← lookup_isSome,hex]
    rfl

theorem authorize_update_ok : vi.authorizeUpdate d p (some env) = .ok m ↔
    ∃ u readSet writeSet signedData, vi.Accepts d p env u readSet writeSet signedData ∧
      m = vi.computeUpdateResult (computeDeltaSet readSet writeSet) := by
  rw [Validator.authorizeUpdate]
  constructor
  · intro h
    cases hu : d.unmarshalConfigUpdate env.configUpdate with
    | none =>
      simp only [hu] at h
      cases h
    | some u =>
      simp only [hu] at h
      by_cases hc : u.channelId = vi.channelID
      · rw [if_neg (not_not.mpr hc)] at h
        obtain ⟨readSet,hr,h⟩ := bind_ok.mp h
        obtain ⟨_,hcu,h⟩ := bind_ok.mp h
        obtain ⟨writeSet,hwr,h⟩ := bind_ok.mp h
        cases hd : configUpdateEnvelopeAsSignedData d env with
        | none =>
          simp only [hd] at h
          cases h
        | some signedData =>
          simp only [hd] at h
          obtain ⟨_,hde,h⟩ := bind_ok.mp h
          obtain ⟨_,_,h⟩ := bind_ok.mp h
          cases h
          obtain ⟨he,hch⟩ := verify_delta_set_ok.mp (map_error_ok.mp hde)
          exact ⟨u,readSet,writeSet,signedData,⟨hu,hc,map_error_ok.mp hr,
            verify_read_set_ok.mp (map_error_ok.mp hcu),map_error_ok.mp hwr,hd,
            he,hch⟩,rfl⟩
      · rw [if_pos hc] at h
        cases h
  · rintro ⟨u,readSet,writeSet,signedData,a,rfl⟩
    simp only [a.decoded]
    rw [if_neg (not_not.mpr a.channel)]
    refine bind_ok.mpr ⟨readSet,map_error_ok.mpr a.read,?_⟩
    refine bind_ok.mpr ⟨(),map_error_ok.mpr (verify_read_set_ok.mpr a.current),?_⟩
    refine bind_ok.mpr ⟨writeSet,map_error_ok.mpr a.write,?_⟩
    simp only [a.signed]
    refine bind_ok.mpr ⟨(),map_error_ok.mpr
      (verify_delta_set_ok.mpr ⟨a.effect,a.checked⟩),?_⟩
    exact bind_ok.mpr ⟨(),map_error_ok.mpr (verify_full_ok a.current),rfl⟩

theorem new_validator_ok {co : Config} : newValidatorImpl channelID (some co) ro pm = .ok vi ↔
      ∃ t cm, co.channelGroup = some t ∧ validateChannelID channelID = .ok () ∧
        mapConfig (some t) ro = .ok cm ∧
        vi = ⟨channelID,co.sequence,cm,co,ro,pm⟩ := by
  rw [newValidatorImpl]
  cases hg : co.channelGroup with
  | none => simp
  | some t =>
    rw [Option.isNone_some,if_neg (by simp)]
    constructor
    · intro h
      obtain ⟨_,hid,h⟩ := bind_ok.mp h
      obtain ⟨cm,hm,h⟩ := bind_ok.mp h
      cases h
      exact ⟨t,cm,rfl,map_error_ok.mp hid,map_error_ok.mp hm,rfl⟩
    · rintro ⟨t',cm,ht,hid,hm,rfl⟩
      cases ht
      refine bind_ok.mpr ⟨(),map_error_ok.mpr hid,?_⟩
      exact bind_ok.mpr ⟨cm,map_error_ok.mpr hm,rfl⟩

theorem propose_ok : vi.proposeConfigUpdate d p co = .ok out ↔
      ∃ env m t, d.envelopeToConfigUpdate co = some env ∧
        vi.authorizeUpdate d p (some env) = .ok m ∧ configMapToConfig m vi.rootGroupKey = .ok t ∧
        out = ⟨⟨vi.sequence + 1,some t⟩,co⟩ := by
  rw [Validator.proposeConfigUpdate]
  constructor
  · intro h
    cases he : d.envelopeToConfigUpdate co with
    | none =>
      simp only [he] at h
      cases h
    | some env =>
      simp only [he] at h
      obtain ⟨m,hm,h⟩ := bind_ok.mp h
      obtain ⟨t,ht,h⟩ := bind_ok.mp h
      cases h
      exact ⟨env,m,t,rfl,map_error_ok.mp hm,map_error_ok.mp ht,rfl⟩
  · rintro ⟨env,m,t,he,hm,ht,rfl⟩
    simp only [he]
    refine bind_ok.mpr ⟨m,map_error_ok.mpr hm,?_⟩
    exact bind_ok.mpr ⟨t,map_error_ok.mpr ht,rfl⟩

end PluggableHcs.Configtx
