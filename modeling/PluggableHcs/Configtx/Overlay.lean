import PluggableHcs.Configtx.Acceptance

namespace PluggableHcs.Configtx
open Trees List Option AList ConfigGroup

def treeAt (o : Option ConfigGroup) : Layout Kind Chars Element :=
  fun k ns => (findIn o k ns).map Content.element

theorem tree_at_closed : shape.Closed (treeAt o) := by
  cases o with
  | none => exact ⟨by simp [treeAt,findIn],by simp [treeAt,findIn]⟩
  | some t => exact t.element_at_closed

theorem tree_at_complete : shape.Complete (treeAt o) := by
  cases o with
  | none => simp [Shape.Complete,treeAt,findIn]
  | some t => exact t.element_at_complete

theorem tree_at_some {ns : List Chars} :
    treeAt o k ns = some e ↔ ∃ c, findIn o k ns = some c ∧ c.element = e :=
  map_eq_some_iff

def delta (r w : Layout Kind Chars Element) : Layout Kind Chars Element :=
  fun k ns => (w k ns).bind fun e =>
    if (r k ns).map Element.version = some e.version then none else some e

theorem delta_some {ns : List Chars} : delta r w k ns = some e ↔
      w k ns = some e ∧ ∀ x, r k ns = some x → x.version ≠ e.version := by
  rw [delta,bind_eq_some_iff]
  constructor
  · rintro ⟨e',hw,he⟩
    split_ifs at he with hr
    cases he
    refine ⟨hw,?_⟩
    intro x hx hv
    rw [hx,map_some,hv] at hr
    exact hr rfl
  · rintro ⟨hw,hr⟩
    refine ⟨e,hw,if_neg ?_⟩
    intro h
    obtain ⟨x,hx,hv⟩ := map_eq_some_iff.mp h
    exact hr x hx hv

/-- The versions that an update states fit the config `c`: what it reads is current, what it
changes is one version on, and what is new starts at 0. -/
structure Fits (c r w : Layout Kind Chars Element) : Prop where
  current : ∀ {k ns e}, r k ns = some e → ∃ x, c k ns = some x ∧ x.version = e.version
  fresh : ∀ {k ns e}, delta r w k ns = some e → c k ns = none → e.version = 0
  raised : ∀ {k ns e x}, delta r w k ns = some e → c k ns = some x → e.version = x.version + 1

/-- An update that is let through: it fits, has an effect, its mod_policies are well formed, and
those of the elements that it changes are satisfied. -/
structure Admits (c r w : Layout Kind Chars Element) (satisfied : Kind → List Chars → Prop) : Prop
    extends Fits c r w where
  effect : ∃ k ns e, delta r w k ns = some e
  modPolicy : ∀ {k ns e}, delta r w k ns = some e → validateModPolicy e.modPolicy = .ok ()
  satisfied : ∀ {k ns e x}, delta r w k ns = some e → c k ns = some x → satisfied k ns

theorem Fits.patch {c r w : Layout Kind Chars Element} (f : Fits c r w) (hcl : shape.Closed w)
    (hc : shape.Complete w) : shape.Patch c w (delta r w) where
  closed := hcl
  complete := hc
  part h := (delta_some.mp h).1
  covered := by
    intro k ns e hw hd
    cases hr : r k ns with
    | none =>
      rw [delta_some.mpr ⟨hw,by simp [hr]⟩] at hd
      cases hd
    | some x =>
      obtain ⟨y,hy,_⟩ := f.current hr
      exact ⟨y,hy⟩

structure Validator.Holds {μ : Type} (vi : Validator μ) (t : ConfigGroup) : Prop where
  formed : t.Formed
  flattens : Flattens vi.configMap vi.rootGroupKey (some t)

def Validator.Satisfied {μ : Type} (p : PolicyManagers μ) (vi : Validator μ)
    (signedData : List SignedData) (t : ConfigGroup) (k : Kind) (ns : List Chars) : Prop :=
  ∃ c policy, t.find k ns = some c ∧
    vi.policyForItem p (placed [] vi.rootGroupKey ns c) = some policy ∧ policy signedData = true

/-- An envelope that authorizeUpdate accepts, in terms of the trees. -/
structure Validator.Admitted {μ : Type} (d : Decoders) (p : PolicyManagers μ) (vi : Validator μ)
    (t : ConfigGroup) (env : ConfigUpdateEnvelope) (u : ConfigUpdate)
    (signedData : List SignedData) : Prop where
  decoded : d.unmarshalConfigUpdate env.configUpdate = some u
  channel : u.channelId = vi.channelID
  readNamed : Named vi.rootGroupKey u.readSet
  writeNamed : Named vi.rootGroupKey u.writeSet
  signed : configUpdateEnvelopeAsSignedData d env = some signedData
  admits : Admits t.elementAt (treeAt u.readSet) (treeAt u.writeSet) (vi.Satisfied p signedData t)

/-- A map whose entries are those of a layout with legal names, under the keys of its places. -/
structure Lays (m : ConfigMap) (root : Chars) (l : Layout Kind Chars Element) : Prop where
  entries_eq : ∀ {k ns}, (∀ n ∈ ns, Legal n) → entries m root k ns = l k ns
  names : ∀ {k ns e}, l k ns = some e → ∀ n ∈ ns, Legal n
  only : ∀ {key x}, m.lookup key = some x → ∃ k ns, (∀ n ∈ ns, Legal n) ∧ key = keyAt root k ns ∧
    x.content.kind = k ∧ ∀ g, x.content = .group g → g.Formed

variable {μ : Type} {d : Decoders} {p : PolicyManagers μ} {vi : Validator μ} {t : ConfigGroup}
  {en : ConfigUpdateEnvelope} {m rs ws : ConfigMap} {signedData : List SignedData}
  {root : Chars} {r w : Option ConfigGroup} {k : Kind} {ns : List Chars}

theorem new_validator_holds {co : Config} (f : co.Formed)
    (h : newValidatorImpl channelID (some co) root pm = .ok vi) :
    ∃ t, co.channelGroup = some t ∧ vi.Holds t ∧ vi.rootGroupKey = root ∧
      vi.channelID = channelID ∧ vi.sequence = co.sequence := by
  obtain ⟨t,cm,hg,_,hm,rfl⟩ := new_validator_ok.mp h
  have ht := f t hg
  exact ⟨t,hg,⟨ht,map_config_flattens (by simpa using ht) hm⟩,rfl,rfl,rfl⟩

theorem Validator.Holds.root_legal (hs : vi.Holds t) : Legal vi.rootGroupKey :=
  hs.flattens.rootLegal rfl

theorem delta_set_at (hr : Flattens rs root r) (hw : Flattens ws root w)
    (hns : ∀ n ∈ ns, Legal n) {va : Comparable} :
    (computeDeltaSet rs ws).lookup (keyAt root k ns) = some va ↔
      ∃ c, findIn w k ns = some c ∧ va = placed [] root ns c ∧
        delta (treeAt r) (treeAt w) k ns = some c.element := by
  rw [delta_set_lookup,hw.lookup_eq hns,hr.lookup_eq hns]
  constructor
  · rintro ⟨hv,hrd⟩
    obtain ⟨c,hc,rfl⟩ := map_eq_some_iff.mp hv
    refine ⟨c,hc,rfl,delta_some.mpr ⟨tree_at_some.mpr ⟨c,hc,rfl⟩,?_⟩⟩
    intro x hx
    obtain ⟨y,hy,rfl⟩ := tree_at_some.mp hx
    have := hrd (placed [] root ns y) (by rw [hy]; rfl)
    rw [placed_version,placed_version] at this
    simpa using this
  · rintro ⟨c,hc,rfl,hd⟩
    refine ⟨by rw [hc]; rfl,?_⟩
    intro rv hre
    obtain ⟨y,hy,rfl⟩ := map_eq_some_iff.mp hre
    have := (delta_some.mp hd).2 _ (tree_at_some.mpr ⟨y,hy,rfl⟩)
    rw [placed_version,placed_version]
    simpa using this

theorem delta_set_only (hw : Flattens ws root w) {ke : Chars} {va : Comparable}
    (h : (computeDeltaSet rs ws).lookup ke = some va) :
    ∃ k ns, (∀ n ∈ ns, Legal n) ∧ ke = keyAt root k ns := by
  obtain ⟨k,ns,c,hc,hk,_⟩ := hw.only (delta_set_lookup.mp h).1
  exact ⟨k,ns,hw.names hc,hk⟩

theorem delta_ok_iff (hs : vi.Holds t) (hns : ∀ n ∈ ns, Legal n) :
    vi.DeltaOk p signedData (keyAt vi.rootGroupKey k ns) (placed [] vi.rootGroupKey ns c) ↔
      validateModPolicy c.modPolicy = .ok () ∧ (t.elementAt k ns = none → c.version = 0) ∧
      ∀ x, t.elementAt k ns = some x →
        c.version = x.version + 1 ∧ vi.Satisfied p signedData t k ns := by
  have hlk : vi.configMap.lookup (keyAt vi.rootGroupKey k ns) =
      (t.find k ns).map (placed [] vi.rootGroupKey ns) := hs.flattens.lookup_eq hns
  constructor
  · rintro ⟨hm,hf,hr⟩
    rw [hlk,placed_version] at hf
    rw [hlk,placed_version] at hr
    rw [placed_mod_policy] at hm
    refine ⟨hm,?_,?_⟩
    · intro hn
      apply hf
      rw [map_eq_none_iff.mp hn]
      rfl
    · intro x hx
      obtain ⟨y,hy,rfl⟩ := map_eq_some_iff.mp hx
      obtain ⟨hv,po,hfo,hd⟩ := hr _ (by rw [hy]; rfl)
      rw [placed_version] at hv
      exact ⟨by simpa using hv,y,po,hy,hfo,hd⟩
  · rintro ⟨hm,hf,hr⟩
    refine ⟨by rw [placed_mod_policy]; exact hm,?_,?_⟩
    · intro hn
      rw [hlk] at hn
      rw [placed_version]
      apply hf
      rw [elementAt,map_eq_none_iff.mp hn]
      rfl
    · intro ex he
      rw [hlk] at he
      obtain ⟨y,hy,rfl⟩ := map_eq_some_iff.mp he
      have hel : t.elementAt k ns = some y.element := by
        rw [elementAt,hy]
        rfl
      obtain ⟨hv,z,po,hz,hfo,hd⟩ := hr _ hel
      cases hy.symm.trans hz
      rw [placed_version,placed_version]
      exact ⟨by simpa using hv,po,hfo,hd⟩

theorem accepts_admitted (hs : vi.Holds t) (a : vi.Accepts d p en u rs ws signedData) :
    vi.Admitted d p t en u signedData := by
  have f := d.formed a.decoded
  have hr := map_config_flattens f.readSet a.read
  have hwr := map_config_flattens f.writeSet a.write
  have hch : ∀ {k ns e}, delta (treeAt u.readSet) (treeAt u.writeSet) k ns = some e →
      ∃ c : Content, c.element = e ∧ validateModPolicy c.modPolicy = .ok () ∧
        (t.elementAt k ns = none → c.version = 0) ∧
        ∀ x, t.elementAt k ns = some x →
          c.version = x.version + 1 ∧ vi.Satisfied p signedData t k ns := by
    intro k ns e he
    obtain ⟨c,hc,rfl⟩ := tree_at_some.mp (delta_some.mp he).1
    have hns := hwr.names hc
    refine ⟨c,rfl,(delta_ok_iff hs hns).mp ?_⟩
    exact a.checked _ _ ((delta_set_at hr hwr hns).mpr ⟨c,hc,rfl,he⟩)
  refine ⟨a.decoded,a.channel,hr.toNamed,hwr.toNamed,a.signed,⟨⟨?_,?_,?_⟩,?_,?_,?_⟩⟩
  · intro k ns e he
    obtain ⟨c,hc,rfl⟩ := tree_at_some.mp he
    obtain ⟨ex,hex,hv⟩ := a.current _ _ (hr.found hc)
    rw [hs.flattens.lookup_eq (hr.names hc)] at hex
    obtain ⟨y,hy,rfl⟩ := map_eq_some_iff.mp hex
    refine ⟨y.element,tree_at_some.mpr ⟨y,hy,rfl⟩,?_⟩
    rw [placed_version,placed_version] at hv
    simpa using hv
  · intro k ns e he hn
    obtain ⟨c,rfl,_,hf,_⟩ := hch he
    simpa using hf hn
  · intro k ns e x he hx
    obtain ⟨c,rfl,_,_,hra⟩ := hch he
    simpa using (hra x hx).1
  · obtain ⟨ke,va,hva⟩ := a.effect
    obtain ⟨k,ns,hns,rfl⟩ := delta_set_only hwr hva
    obtain ⟨c,_,_,he⟩ := (delta_set_at hr hwr hns).mp hva
    exact ⟨k,ns,_,he⟩
  · intro k ns e he
    obtain ⟨c,rfl,hm,_⟩ := hch he
    simpa using hm
  · intro k ns e x he hx
    obtain ⟨c,_,_,_,hra⟩ := hch he
    exact (hra x hx).2

theorem admitted_accepts (hs : vi.Holds t) (a : vi.Admitted d p t en u signedData) :
    ∃ rs ws, vi.Accepts d p en u rs ws signedData := by
  have f := d.formed a.decoded
  obtain ⟨rs,hre⟩ := map_config_total f.readSet a.readNamed
  obtain ⟨ws,hw⟩ := map_config_total f.writeSet a.writeNamed
  have hr := map_config_flattens f.readSet hre
  have hwr := map_config_flattens f.writeSet hw
  refine ⟨rs,ws,a.decoded,a.channel,hre,?_,hw,a.signed,?_,?_⟩
  · intro ke va hva
    obtain ⟨k,ns,c,hc,rfl,rfl⟩ := hr.only hva
    obtain ⟨x,hx,hv⟩ := a.admits.current (tree_at_some.mpr ⟨c,hc,rfl⟩)
    obtain ⟨y,hy,rfl⟩ := map_eq_some_iff.mp hx
    refine ⟨placed [] vi.rootGroupKey ns y,hs.flattens.found hy,?_⟩
    rw [placed_version,placed_version]
    simpa using hv
  · obtain ⟨k,ns,e,he⟩ := a.admits.effect
    obtain ⟨c,hc,rfl⟩ := tree_at_some.mp (delta_some.mp he).1
    exact ⟨_,_,(delta_set_at hr hwr (hwr.names hc)).mpr ⟨c,hc,rfl,he⟩⟩
  · intro ke va hva
    obtain ⟨k,ns,hns,rfl⟩ := delta_set_only hwr hva
    obtain ⟨c,hc,rfl,he⟩ := (delta_set_at hr hwr hns).mp hva
    refine (delta_ok_iff hs hns).mpr ⟨by simpa using a.admits.modPolicy he,?_,?_⟩
    · intro hn
      simpa using a.admits.fresh he hn
    · intro x hx
      exact ⟨by simpa using a.admits.raised he hx,a.admits.satisfied he hx⟩

theorem keys_kind {ns n' : List Chars} (h : keyAt root k ns = keyAt root k' n') : k = k' :=
  key_prefix_injective (append_inj h (by rw [key_prefix_length,key_prefix_length])).1

theorem Lays.sorted (hl : Lays m root l) : Sorted m root := by
  intro k ns c hc
  obtain ⟨k',n',_,hk,hki,_⟩ := hl.only hc
  rw [hki,keys_kind hk]

theorem Lays.reach_eq (hs : Lays m root l)
    (hl : shape.Complete l) : shape.reach (entries m root) k ns = shape.reach l k ns := by
  apply Shape.reach_congr
  · exact hs.entries_eq (by simp)
  · intro k n ns v hv hls
    obtain ⟨e,he⟩ := hl (Shape.reach_le hv) hls
    exact hs.entries_eq (hs.names he)

def capabilities : List Chars := ["Capabilities".toList,"Orderer".toList]

def Capable (root : Chars) (l : Layout Kind Chars Element) : Prop :=
  root = "Channel".toList ∧ l .value capabilities ≠ none

theorem capabilities_legal : ∀ n ∈ capabilities, Legal n := by
  decide +kernel

theorem hacky_fix_key :
    hackyFixOrdererCapabilities = keyAt "Channel".toList .value capabilities := by
  decide +kernel

theorem Lays.upgrades_iff (hl : Lays m root l)
    (hr : Legal root) : upgrades m = true ↔ Capable root l := by
  rw [upgrades,hacky_fix_key]
  constructor
  · intro h
    obtain ⟨x,hx⟩ := isSome_iff_exists.mp h
    obtain ⟨k,ns,hns,hk,_,_⟩ := hl.only hx
    have hp := (append_inj hk (by rw [key_prefix_length,key_prefix_length])).2
    have hc : ∀ n ∈ "Channel".toList :: capabilities.reverse, '/' ∉ n := by decide +kernel
    have hs : ∀ n ∈ root :: ns.reverse, '/' ∉ n := by
      intro n hn
      rcases mem_cons.mp hn with rfl | hn
      · exact hr.no_separator
      · exact (hns n (mem_reverse.mp hn)).no_separator
    have hna := (List.cons.inj (Text.rooted_injective hc hs hp)).1
    subst hna
    refine ⟨rfl,?_⟩
    rw [← hl.entries_eq capabilities_legal,entries,hx]
    simp
  · rintro ⟨rfl,h⟩
    rw [← hl.entries_eq capabilities_legal,entries,ne_eq,map_eq_none_iff] at h
    exact isSome_iff_ne_none.mpr h

theorem Flattens.lays (f : Flattens m root o) (ho : ∀ t ∈ o, t.Formed) :
    Lays m root (treeAt o) where
  entries_eq := by
    intro k ns hns
    rw [entries,f.lookup_eq hns,Option.map_map]
    have hco : (fun c : Comparable => c.content.element) ∘ placed [] root ns = Content.element := by
      funext c
      rw [Function.comp_apply,placed_content]
    rw [hco]
    rfl
  names := by
    intro k ns e he
    obtain ⟨c,hc,_⟩ := tree_at_some.mp he
    exact f.names hc
  only := by
    intro ke x hx
    obtain ⟨k,ns,c,hc,hk,rfl⟩ := f.only hx
    obtain ⟨t,ht,hf⟩ := bind_eq_some_iff.mp hc
    rw [placed_content]
    refine ⟨k,ns,f.names hc,hk,find_kind hf,?_⟩
    rintro g rfl
    exact (ho t ht).find hf

theorem Validator.Holds.lays (hs : vi.Holds t) : Lays vi.configMap vi.rootGroupKey t.elementAt := by
  refine hs.flattens.lays ?_
  rintro _ ⟨⟩
  exact hs.formed

theorem overlay_lays (hs : vi.Holds t) (hrf : ∀ g ∈ w, g.Formed)
    (hr : Flattens rs vi.rootGroupKey r) (hwr : Flattens ws vi.rootGroupKey w) :
    Lays (vi.computeUpdateResult (computeDeltaSet rs ws)) vi.rootGroupKey
      (overlay (delta (treeAt r) (treeAt w)) t.elementAt) := by
  have hlk : ∀ ke, (vi.computeUpdateResult (computeDeltaSet rs ws)).lookup ke =
      ((computeDeltaSet rs ws).lookup ke).or (vi.configMap.lookup ke) := by
    intro ke
    rw [Validator.computeUpdateResult]
    cases hd : (computeDeltaSet rs ws).lookup ke with
    | none => rw [lookup_union_right (lookup_eq_none.mp hd),none_or]
    | some x =>
      rw [lookup_union_left (lookup_isSome.mp (by rw [hd]; rfl)),hd,some_or]
  refine ⟨?_,?_,?_⟩
  · intro k ns hns
    rw [entries,hlk,overlay]
    cases hd : delta (treeAt r) (treeAt w) k ns with
    | none =>
      have hn : (computeDeltaSet rs ws).lookup (keyAt vi.rootGroupKey k ns) = none := by
        rw [eq_none_iff_forall_not_mem]
        intro x hx
        obtain ⟨c,_,_,he⟩ := (delta_set_at hr hwr hns).mp hx
        rw [hd] at he
        cases he
      rw [hn,none_or,none_or]
      exact hs.lays.entries_eq hns
    | some e =>
      obtain ⟨c,hc,rfl⟩ := tree_at_some.mp (delta_some.mp hd).1
      rw [(delta_set_at hr hwr hns).mpr ⟨c,hc,rfl,hd⟩,some_or,some_or,map_some,placed_content]
  · intro k ns e he
    rcases overlay_cases he with hd | ⟨_,hc⟩
    · obtain ⟨c,hc,_⟩ := tree_at_some.mp (delta_some.mp hd).1
      exact hwr.names hc
    · exact hs.lays.names hc
  · intro ke x hx
    rw [hlk] at hx
    cases hd : (computeDeltaSet rs ws).lookup ke with
    | none =>
      rw [hd,none_or] at hx
      exact hs.lays.only hx
    | some y =>
      rw [hd,some_or] at hx
      cases hx
      exact (hwr.lays hrf).only (delta_set_lookup.mp hd).1

theorem authorize_result (hs : vi.Holds t) (h : vi.authorizeUpdate d p (some en) = .ok m) :
    ∃ u signedData, vi.Admitted d p t en u signedData ∧
      Lays m vi.rootGroupKey (overlay (delta (treeAt u.readSet) (treeAt u.writeSet)) t.elementAt) := by
  obtain ⟨u,rs,ws,signedData,a,rfl⟩ := authorize_update_ok.mp h
  have f := d.formed a.decoded
  exact ⟨u,signedData,accepts_admitted hs a,overlay_lays hs f.writeSet
    (map_config_flattens f.readSet a.read) (map_config_flattens f.writeSet a.write)⟩

theorem admitted_authorized (hs : vi.Holds t)
    (a : vi.Admitted d p t en u signedData) : ∃ m, vi.authorizeUpdate d p (some en) = .ok m := by
  obtain ⟨rs,ws,ha⟩ := admitted_accepts hs a
  exact ⟨_,authorize_update_ok.mpr ⟨u,rs,ws,signedData,ha,rfl⟩⟩

theorem Validator.Admitted.patch (a : vi.Admitted d p t en u signedData) :
    shape.Patch t.elementAt (treeAt u.writeSet) (delta (treeAt u.readSet) (treeAt u.writeSet)) :=
  a.admits.toFits.patch tree_at_closed tree_at_complete

theorem Validator.Admitted.over_complete (a : vi.Admitted d p t en u signedData) :
    shape.Complete (overlay (delta (treeAt u.readSet) (treeAt u.writeSet)) t.elementAt) :=
  a.patch.over_complete t.element_at_complete

theorem Lays.rebuilt (hs : Lays m root l)
    (hl : shape.Complete l) (h : configMapToConfig m root = .ok t') (k : Kind) (ns : List Chars) :
    t'.elementAt k ns = (shape.reach l k ns).map (Element.upgraded (upgrades m)) := by
  rw [config_map_elements h,hs.reach_eq hl]

theorem Lays.rebuilt_formed (hl : Lays m root l)
    (h : configMapToConfig m root = .ok t') : t'.Formed := by
  refine recurse_config_map_formed ?_ h
  intro ke c g hc hg
  obtain ⟨_,_,_,_,_,hfm⟩ := hl.only hc
  exact hfm g hg

theorem Lays.rebuilt_named (hs : Lays m root l)
    (hl : shape.Complete l) (hr : Legal root) (h : configMapToConfig m root = .ok t') :
    Named root (some t') := by
  refine ⟨fun _ => hr,?_⟩
  intro k ns c hc
  have hel : t'.elementAt k ns = some c.element := by
    have hf : t'.find k ns = some c := hc
    rw [elementAt,hf]
    rfl
  rw [hs.rebuilt hl h] at hel
  obtain ⟨e,he,_⟩ := map_eq_some_iff.mp hel
  exact hs.names (Shape.reach_le he)

theorem Lays.total (ha : Lays m root l) (hl : shape.Complete l) (hr : l .group [] ≠ none) :
    ∃ t, configMapToConfig m root = .ok t := by
  refine config_map_total ha.sorted ?_ (by rwa [ha.entries_eq (by simp)])
  intro ns v k n hv hls
  obtain ⟨x,hx,hxv⟩ := entries_some.mp hv
  obtain ⟨k',ns',hns',hke,_,_⟩ := ha.only hx
  have hk : Kind.group = k' := keys_kind hke
  subst hk
  have hs : entries m root .group ns' = some v := by
    rw [entries,← hke,hx,map_some,hxv]
  rw [ha.entries_eq hns'] at hs
  obtain ⟨e,he⟩ := hl hs hls
  rw [← ha.entries_eq (ha.names he)] at he
  refine ⟨e,?_⟩
  have hp : pathAt root ns = pathAt root ns' := (append_inj hke rfl).2
  rw [entries,keyAt,path_at_cons,hp]
  rw [entries,keyAt,path_at_cons] at he
  exact he

theorem authorized_rebuilds (hs : vi.Holds t) (h : vi.authorizeUpdate d p (some en) = .ok m) :
    ∃ t', configMapToConfig m vi.rootGroupKey = .ok t' := by
  obtain ⟨u,signedData,a,ls⟩ := authorize_result hs h
  refine ls.total a.over_complete ?_
  cases hd : delta (treeAt u.readSet) (treeAt u.writeSet) .group [] with
  | none =>
    rw [overlay_none hd,element_at_root]
    simp
  | some e =>
    rw [overlay_some hd]
    simp

/-- A tree is flattened exactly when all its names are legal; its elements then have keys of
their own, and the tree is rebuilt from the map up to the upgrade of empty mod_policies. -/
theorem flattening_lossless (ht : t.Formed) (root : Chars) :
    ((∃ m, mapConfig (some t) root = .ok m) ↔ Named root (some t)) ∧
    ∀ m, mapConfig (some t) root = .ok m → (∀ k ns c, t.find k ns = some c →
        m.lookup (placed [] root ns c).fqPath = some (placed [] root ns c)) ∧
      (∀ k ns c k' ns' c', t.find k ns = some c → t.find k' ns' = some c' →
        (placed [] root ns c).fqPath = (placed [] root ns' c').fqPath → k = k' ∧ ns = ns') ∧
      (upgrades m = true ↔ Capable root t.elementAt) ∧
      ∃ t', configMapToConfig m root = .ok t' ∧ t'.Formed ∧
        ∀ k ns, t'.elementAt k ns = (t.elementAt k ns).map (Element.upgraded (upgrades m)) := by
  have ho : ∀ t' ∈ some t, t'.Formed := by
    rintro _ ⟨⟩
    exact ht
  have hk {k ns c} (hc : t.find k ns = some c) :
      (placed [] root ns c).fqPath = keyAt root k ns := by
    rw [placed_fq_path,find_kind hc]
  refine ⟨⟨fun ⟨m,hm⟩ => (map_config_flattens ho hm).toNamed,map_config_total ho⟩,?_⟩
  intro m hm
  have f := map_config_flattens ho hm
  have ls : Lays m root t.elementAt := f.lays ho
  refine ⟨?_,?_,ls.upgrades_iff (f.rootLegal rfl),?_⟩
  · intro k ns c hc
    rw [hk hc]
    exact f.found hc
  · intro k ns c k' ns' c' hc hc' heq
    rw [hk hc,hk hc'] at heq
    exact key_at_injective (f.rootLegal rfl) (f.of_find hc) (f.of_find hc') heq
  · obtain ⟨t',hr⟩ := ls.total t.element_at_complete (by simp [element_at_root])
    refine ⟨t',hr,ls.rebuilt_formed hr,?_⟩
    intro k ns
    rw [ls.rebuilt t.element_at_complete hr,t.element_at_closed.reach_eq]

/-- The capabilities of the orderer, and a policy beside them without a mod_policy. -/
def capableTree : ConfigGroup :=
  ⟨1,[⟨"Orderer".toList,⟨0,[],[⟨"Capabilities".toList,⟨2,[7],['A']⟩⟩],
    [⟨['B'],⟨3,some ⟨1,[8]⟩,[]⟩⟩],['A']⟩⟩],[],[],['A']⟩

theorem capable_tree_rebuilt : capableTree.Formed ∧
    ∃ m t', mapConfig (some capableTree) "Channel".toList = .ok m ∧ m.keys.length = 4 ∧
      configMapToConfig m "Channel".toList = .ok t' ∧
      t'.elementAt .value capabilities = capableTree.elementAt .value capabilities ∧
      t'.elementAt .policy [['B'],"Orderer".toList] =
        (capableTree.elementAt .policy [['B'],"Orderer".toList]).map fun e =>
          { e with modPolicy := "Admins".toList } := by
  have formed : capableTree.Formed := by decide
  obtain ⟨m,hm,hl⟩ : ∃ m, mapConfig (some capableTree) "Channel".toList = .ok m ∧ m.keys.length = 4 :=
    ⟨_,rfl,rfl⟩
  obtain ⟨_,_,upgrade,t',rebuilt,_,same⟩ := (flattening_lossless formed _).2 m hm
  have on : upgrades m = true := upgrade.mpr ⟨rfl,Option.some_ne_none _⟩
  refine ⟨formed,m,t',hm,hl,rebuilt,?_,?_⟩
  · rw [same,on]
    rfl
  · rw [same,on]
    rfl

end PluggableHcs.Configtx
