import PluggableHcs.Txmgmt.CombinedIterator

namespace PluggableHcs.Txmgmt
open Readings Tables Merkle CombinedIterator List Option

abbrev HashFunc := Hashing KVRead Bytes

/-- The hash function over the serialized reads, and over the concatenation of hashes. -/
def computeCombinedHash (hashFunc : Bytes → Bytes) (serializeKVReads : List KVRead → Bytes) :
    HashFunc :=
  ⟨fun kvReads => hashFunc (serializeKVReads kvReads),fun hashes => hashFunc hashes.flatten⟩

/-- Results of a range query on their way into a Merkle tree, lowest level first. -/
structure ResultsHelper (η : Type) where
  pendingResults : List KVRead
  levels : List (List η)
  maxDegree : Nat
  hashingEnabled : Bool
  leveled : levels ≠ []
  branching : hashingEnabled = true → 2 ≤ maxDegree

abbrev RangeQueryResultsHelper := ResultsHelper Bytes

namespace ResultsHelper
variable {η : Type}

def new (enableHashing : Bool) (maxDegree : Nat) : Option (ResultsHelper η) :=
  if h : enableHashing = true → 2 ≤ maxDegree then
    some ⟨[],[[]],maxDegree,enableHashing,cons_ne_nil _ _,h⟩
  else none

variable (H : Hashing KVRead η)

variable (h : ResultsHelper η)

def processPendingResults : ResultsHelper η where
  pendingResults := []
  levels := carry H h.maxDegree (H.items h.pendingResults) h.levels
  maxDegree := h.maxDegree
  hashingEnabled := h.hashingEnabled
  leveled := (carry_top H _ _ h.leveled).1
  branching := h.branching

def addResult (r : KVRead) : ResultsHelper η :=
  let added := { h with pendingResults := h.pendingResults ++ [r] }
  if h.hashingEnabled && decide (h.maxDegree < added.pendingResults.length) then
    added.processPendingResults H
  else added

def addResults (rs : List KVRead) : ResultsHelper η :=
  rs.foldl (addResult H) h

def isEmpty : Bool :=
  decide (h.levels.length = 1) && (top h.levels).isEmpty

def done : List KVRead × Option (MerkleSummary η) :=
  if !h.hashingEnabled || h.isEmpty then (h.pendingResults,none)
  else
    let processed := if h.pendingResults.isEmpty then h else h.processPendingResults H
    let final := complete H h.maxDegree none processed.levels
    (processed.pendingResults,some ⟨h.maxDegree,final.1,final.2⟩)

def getMerkleSummary : MerkleSummary η :=
  ⟨h.maxDegree,h.levels.length,top h.levels⟩

end ResultsHelper

open ResultsHelper

def summarize {η : Type} (H : Hashing KVRead η) (maxDegree : Nat) (results : List KVRead) :
    Option (MerkleSummary η) :=
  (ResultsHelper.new true maxDegree).bind fun h => ((h.addResults H results).done H).2

def Records (H : HashFunc) (info : ReadsInfo) (results : List KVRead) : Prop :=
  match info with
  | .none => results = []
  | .rawReads kvReads => results = kvReads
  | .readsMerkleHashes summary => summarize H summary.maxDegree results = some summary

/-- The version of a recorded read is taken as present. -/
def rangeQueryResultsStep : Step (List KVRead)
  | [],result => .ok (.inr result.isNone)
  | _ :: _,none => .ok (.inr false)
  | r :: rs,some kv =>
    if kv.1 ≠ r.key then .ok (.inr false)
    else
      match r.version with
      | none => .error (.panic .nilVersion)
      | some version => if kv.2.version ≠ version then .ok (.inr false) else .ok (.inl rs)

theorem results_step_decides : Decides rangeQueryResultsStep := by
  intro rs r' h
  cases rs <;> cases h

/-- A read without a version whose turn comes. -/
def Unversioned (kvReads results : List KVRead) : Prop :=
  ∃ before r after result rest, kvReads = before ++ r :: after ∧
    results = before ++ result :: rest ∧ r.key = result.key ∧ r.version = none ∧
    result.version ≠ none

theorem unversioned_cons_same {rs results : List KVRead} :
    Unversioned (r :: rs) (r :: results) ↔ Unversioned rs results := by
  constructor
  · rintro ⟨be,x,af,re,rt,hrs,hr,hk,hn,hs⟩
    cases be with
    | nil =>
      obtain ⟨rfl,_⟩ := List.cons.inj hrs
      obtain ⟨rfl,_⟩ := List.cons.inj hr
      exact absurd hn hs
    | cons y be =>
      exact ⟨be,x,af,re,rt,(List.cons.inj hrs).2,(List.cons.inj hr).2,hk,hn,hs⟩
  · rintro ⟨be,x,af,re,rt,rfl,rfl,hk,hn,hs⟩
    exact ⟨r :: be,x,af,re,rt,rfl,rfl,hk,hn,hs⟩

theorem unversioned_cons_ne {rs ru : List KVRead} (hne : r ≠ re) :
    Unversioned (r :: rs) (re :: ru) ↔ r.key = re.key ∧ r.version = none ∧ re.version ≠ none := by
  constructor
  · rintro ⟨be,x,af,y,rt,hrs,hr,h⟩
    cases be with
    | nil =>
      obtain ⟨rfl,_⟩ := List.cons.inj hrs
      obtain ⟨rfl,_⟩ := List.cons.inj hr
      exact h
    | cons z be => exact absurd ((List.cons.inj hrs).1.trans (List.cons.inj hr).1.symm) hne
  · exact fun h => ⟨[],r,rs,re,ru,rfl,rfl,h⟩

theorem unversioned_nil : ¬ Unversioned rs [] := by
  rintro ⟨be,x,af,re,rt,_,hr,_⟩
  exact absurd hr (by simp)

theorem unversioned_of_nil {results : List KVRead} : ¬ Unversioned [] results := by
  rintro ⟨be,x,af,re,rt,hrs,_⟩
  exact absurd hrs (by simp)

theorem raw_judge (kr : List KVRead) (re : List VersionedKV) :
    judge rangeQueryResultsStep kr re = .ok true ∧ re.map toRead = kr ∨
    judge rangeQueryResultsStep kr re = .ok false ∧ re.map toRead ≠ kr ∧
      ¬ Unversioned kr (re.map toRead) ∨
    judge rangeQueryResultsStep kr re = .error (.panic .nilVersion) ∧
      Unversioned kr (re.map toRead) := by
  induction kr generalizing re with
  | nil =>
    cases re with
    | nil => exact .inl ⟨rfl,rfl⟩
    | cons kv re => exact .inr (.inl ⟨rfl,cons_ne_nil _ _,unversioned_of_nil⟩)
  | cons r rs ih =>
    cases re with
    | nil => exact .inr (.inl ⟨rfl,(cons_ne_nil _ _).symm,unversioned_nil⟩)
    | cons kv re =>
      rw [map_cons]
      by_cases hr : r = toRead kv
      · subst hr
        have hs : rangeQueryResultsStep (toRead kv :: rs) (some kv) = .ok (.inl rs) := by
          simp [rangeQueryResultsStep,toRead]
        rw [judge_next hs,unversioned_cons_same,Ne,cons_inj_right]
        exact ih re
      · rw [unversioned_cons_ne hr]
        obtain ⟨key,version⟩ := r
        by_cases hk : kv.1 = key
        · cases version with
          | none =>
            refine .inr (.inr ⟨?_,hk.symm,rfl,some_ne_none _⟩)
            simp [judge,rangeQueryResultsStep,hk]
          | some version =>
            have hv : kv.2.version ≠ version := by
              intro heq
              exact hr (by rw [toRead,hk,heq])
            refine .inr (.inl ⟨?_,fun h => hr (List.cons.inj h).1.symm,by simp⟩)
            simp [judge,rangeQueryResultsStep,hk,hv]
        · refine .inr (.inl ⟨?_,fun h => hr (List.cons.inj h).1.symm,fun h => hk h.1.symm⟩)
          simp [judge,rangeQueryResultsStep,hk]

section
variable (H : HashFunc)

/-- How many hashes of the last level match, where one more is compared as soon as it is there and
the tree is as high as the recorded one. -/
def matchNext (inMerkle merkle : QueryReadsMerkleSummary) (matched : Nat) :
    Except Failure (Option Nat) :=
  if merkle.maxLevel < inMerkle.maxLevel then .ok (some matched)
  else if matched = merkle.maxLevelHashes.length then .ok (some matched)
  else if inMerkle.maxLevelHashes.length < merkle.maxLevelHashes.length then .ok none
  else
    match merkle.maxLevelHashes[matched]?,inMerkle.maxLevelHashes[matched]? with
    | some hash,some inHash => .ok (if hash = inHash then some (matched + 1) else none)
    | _,_ => .error (.panic .indexOutOfRange)

/-- The helper is nil where it was refused. -/
def rangeQueryHashStep (inMerkle : QueryReadsMerkleSummary) :
    Step (Option RangeQueryResultsHelper × Nat)
  | (none,_),_ => .error (.panic .nilHelper)
  | (some h,_),none => .ok (.inr (decide ((h.done H).2 = some inMerkle)))
  | (some h,matched),some kv =>
    let added := h.addResult H (toRead kv)
    match matchNext inMerkle added.getMerkleSummary matched with
    | .error e => .error e
    | .ok none => .ok (.inr false)
    | .ok (some matched) => .ok (.inl (some added,matched))

variable {H}

theorem hash_step_decides : Decides (rangeQueryHashStep H inMerkle) := by
  rintro ⟨h,ma⟩ s' heq
  cases h <;> cases heq

namespace ResultsHelper
variable {h : RangeQueryResultsHelper}

theorem add_result_top (H : HashFunc) (h : RangeQueryResultsHelper) (r : KVRead) :
    (h.addResult H r).levels.length = h.levels.length ∧
      (top (h.addResult H r).levels = top h.levels ∨
        ∃ x, top (h.addResult H r).levels = top h.levels ++ [x]) ∨
    (h.addResult H r).levels.length = h.levels.length + 1 ∧ 2 ≤ (top h.levels).length ∧
      ∃ x, top (h.addResult H r).levels = [x] := by
  unfold addResult
  dsimp only
  split
  · rename_i hf
    have hb := h.branching (Bool.and_eq_true_iff.mp hf).1
    obtain ⟨_,hs | ⟨hl,hd,hx⟩⟩ :=
      carry_top H h.maxDegree (H.items (h.pendingResults ++ [r])) h.leveled
    · exact .inl hs
    · exact .inr ⟨hl,hb.trans hd,hx⟩
  · exact .inl ⟨rfl,.inl rfl⟩

theorem add_result_reached (r : KVRead) {final : Nat × List Bytes}
    (hr : Reaches (h.addResult H r).levels final) : Reaches h.levels final := by
  refine Reaches.trans ?_ hr
  rcases add_result_top H h r with ⟨hl,heq | ⟨x,hx⟩⟩ | ⟨hl,_⟩
  · exact .inr ⟨hl.symm,heq ▸ prefix_rfl⟩
  · exact .inr ⟨hl.symm,hx ▸ prefix_append _ _⟩
  · exact .inl (hl ▸ Nat.lt_succ_self _)

theorem add_results_reached (rs : List KVRead) {final : Nat × List Bytes}
    (hr : Reaches (h.addResults H rs).levels final) : Reaches h.levels final := by
  induction rs generalizing h with
  | nil => exact hr
  | cons r rs ih => exact add_result_reached r (ih hr)

theorem add_results_top (H : HashFunc) (h : RangeQueryResultsHelper) (rs : List KVRead) :
    Reaches h.levels ((h.addResults H rs).levels.length,top (h.addResults H rs).levels) :=
  add_results_reached rs (.inr ⟨rfl,prefix_rfl⟩)

theorem done_reached (hd : (h.done H).2 = some su) :
    Reaches h.levels (su.maxLevel,su.maxLevelHashes) := by
  unfold done at hd
  split at hd
  · cases hd
  obtain rfl := (Option.some.inj hd).symm
  split
  · exact complete_reached H h.maxDegree none h.leveled
  · exact (carry_reached H h.maxDegree _ h.leveled).trans
      (complete_reached H h.maxDegree none (h.processPendingResults H).leveled)

end ResultsHelper

def comparedLevel (inMerkle : QueryReadsMerkleSummary) : Nat := max inMerkle.maxLevel 1

/-- The hashes that were matched are those of the last level, and there are none yet while the tree
is not as high as the recorded one. -/
def Aligned (inMerkle : QueryReadsMerkleSummary) (h : RangeQueryResultsHelper) (matched : Nat) :
    Prop :=
  h.levels.length < inMerkle.maxLevel ∧ matched = 0 ∨
  h.levels.length = comparedLevel inMerkle ∧ matched = (top h.levels).length ∧
    top h.levels <+: inMerkle.maxLevelHashes

def Outgrows (H : HashFunc) (inMerkle : QueryReadsMerkleSummary) (h : RangeQueryResultsHelper)
    (r : KVRead) : Prop :=
  h.levels.length = comparedLevel inMerkle ∧ top h.levels <+: inMerkle.maxLevelHashes ∧
    (h.addResult H r).levels.length = h.levels.length + 1

def Outgrown (H : HashFunc) (inMerkle : QueryReadsMerkleSummary) (h : RangeQueryResultsHelper)
    (results : List KVRead) : Prop :=
  ∃ before r after, results = before ++ r :: after ∧ Outgrows H inMerkle (h.addResults H before) r

section
variable {im me : QueryReadsMerkleSummary} {ma : Nat}

theorem match_next_low (l : me.maxLevel < im.maxLevel) : matchNext im me ma = .ok (some ma) :=
  if_pos l

theorem match_next_all (h : ma = me.maxLevelHashes.length) :
    matchNext im me ma = .ok (some ma) := by
  by_cases l : me.maxLevel < im.maxLevel
  · exact match_next_low l
  · rw [matchNext,if_neg l,if_pos h]

theorem prefix_snoc (h : xs <+: ys) : xs ++ [x] <+: ys ↔ ys[xs.length]? = some x := by
  obtain ⟨zs,rfl⟩ := h
  rw [prefix_append_right_inj]
  cases zs with
  | nil => simp
  | cons z zs => simp [eq_comm]

theorem match_next_snoc (hi : ¬ me.maxLevel < im.maxLevel)
    (hp : xs <+: im.maxLevelHashes) (hx : me.maxLevelHashes = xs ++ [x]) :
    matchNext im me xs.length = .ok (some (xs.length + 1)) ∧
      me.maxLevelHashes <+: im.maxLevelHashes ∨
    matchNext im me xs.length = .ok none ∧ ¬ me.maxLevelHashes <+: im.maxLevelHashes := by
  unfold matchNext
  rw [if_neg hi,hx,if_neg (by simp),prefix_snoc hp]
  by_cases hs : im.maxLevelHashes.length < (xs ++ [x]).length
  · rw [if_pos hs]
    rw [length_append,length_singleton] at hs
    exact .inr ⟨rfl,by rw [List.getElem?_eq_none (by omega)]; exact (some_ne_none x).symm⟩
  · rw [if_neg hs,List.getElem?_concat_length]
    rw [length_append,length_singleton] at hs
    rw [List.getElem?_eq_getElem (by omega)]
    dsimp only
    rw [some_inj]
    by_cases heq : x = im.maxLevelHashes[xs.length]
    · rw [if_pos heq]
      exact .inl ⟨rfl,heq.symm⟩
    · rw [if_neg heq]
      exact .inr ⟨rfl,fun h => heq h.symm⟩

theorem match_next_beyond (hi : ¬ me.maxLevel < im.maxLevel) (ht : 2 ≤ ma)
    (hle : ma ≤ im.maxLevelHashes.length) (hx : me.maxLevelHashes = [x]) :
    matchNext im me ma = .error (.panic .indexOutOfRange) := by
  have hn : ([x] : List Bytes)[ma]? = none := List.getElem?_eq_none (Nat.le_of_lt ht)
  have hne : ma ≠ [x].length := by simp only [length_singleton]; omega
  have hs : ¬ im.maxLevelHashes.length < [x].length := by
    simp only [length_singleton]
    omega
  unfold matchNext
  rw [if_neg hi,hx,if_neg hne,if_neg hs,hn]

end

theorem compared_level_le : inMerkle.maxLevel ≤ comparedLevel inMerkle :=
  Nat.le_max_left _ _

theorem match_next_aligned (ha : Aligned inMerkle h ma) (r : KVRead) :
    (∃ m', matchNext inMerkle (h.addResult H r).getMerkleSummary ma = .ok (some m') ∧
      Aligned inMerkle (h.addResult H r) m') ∨
    matchNext inMerkle (h.addResult H r).getMerkleSummary ma = .ok none ∧
      (h.addResult H r).levels.length = comparedLevel inMerkle ∧
      ¬ top (h.addResult H r).levels <+: inMerkle.maxLevelHashes ∨
    matchNext inMerkle (h.addResult H r).getMerkleSummary ma =
      .error (.panic .indexOutOfRange) ∧ Outgrows H inMerkle h r := by
  have hle : inMerkle.maxLevel ≤ comparedLevel inMerkle := compared_level_le
  by_cases hlo : (h.addResult H r).levels.length < inMerkle.maxLevel
  · rcases ha with ⟨_,rfl⟩ | ⟨hat,_⟩
    · exact .inl ⟨0,match_next_low hlo,.inl ⟨hlo,rfl⟩⟩
    · rcases add_result_top H h r with ⟨hl,_⟩ | ⟨hl,_⟩ <;> omega
  · rcases ha with ⟨hb,rfl⟩ | ⟨hat,rfl,hpr⟩
    · rcases add_result_top H h r with ⟨hl,_⟩ | ⟨hl,_,x,hx⟩
      · omega
      have hn : (h.addResult H r).levels.length = comparedLevel inMerkle := by
        unfold comparedLevel
        omega
      have he : (h.addResult H r).getMerkleSummary.maxLevelHashes = [] ++ [x] := hx
      rcases match_next_snoc hlo nil_prefix he with ⟨heq,hp⟩ | ⟨heq,hp⟩
      · exact .inl ⟨_,heq,.inr ⟨hn,by rw [hx]; rfl,hp⟩⟩
      · exact .inr (.inl ⟨heq,hn,hp⟩)
    · rcases add_result_top H h r with ⟨hl,ho | ⟨x,hx⟩⟩ | ⟨hl,ht,x,hx⟩
      · have h1 : (top h.levels).length = (top (h.addResult H r).levels).length := by rw [ho]
        exact .inl ⟨_,match_next_all h1,.inr ⟨hl.trans hat,h1,ho ▸ hpr⟩⟩
      · have he : (h.addResult H r).getMerkleSummary.maxLevelHashes = top h.levels ++ [x] := hx
        rcases match_next_snoc hlo hpr he with ⟨heq,hp⟩ | ⟨heq,hp⟩
        · exact .inl ⟨_,heq,.inr ⟨hl.trans hat,by rw [hx]; simp,hp⟩⟩
        · exact .inr (.inl ⟨heq,hl.trans hat,hp⟩)
      · exact .inr (.inr ⟨match_next_beyond hlo ht hpr.length_le hx,hat,hpr,hl⟩)

variable {inMerkle : QueryReadsMerkleSummary} {h : RangeQueryResultsHelper}

theorem outgrown_cons : Outgrown H inMerkle h (r :: rs) ↔
      Outgrows H inMerkle h r ∨ Outgrown H inMerkle (h.addResult H r) rs := by
  constructor
  · rintro ⟨be,x,af,heq,ho⟩
    cases be with
    | nil =>
      obtain ⟨rfl,_⟩ := List.cons.inj heq
      exact .inl ho
    | cons y be =>
      obtain ⟨rfl,hrs⟩ := List.cons.inj heq
      exact .inr ⟨be,x,af,hrs,ho⟩
  · rintro (ho | ⟨be,x,af,rfl,ho⟩)
    · exact ⟨[],r,rs,rfl,ho⟩
    · exact ⟨r :: be,x,af,rfl,ho⟩

theorem not_outgrown (hle : comparedLevel inMerkle ≤ h.levels.length)
    (ho : h.levels.length = comparedLevel inMerkle → ¬ top h.levels <+: inMerkle.maxLevelHashes)
    (rs : List KVRead) : ¬ Outgrown H inMerkle h rs := by
  rintro ⟨be,r,af,_,hat,hp,_⟩
  rcases add_results_top H h be with hlt | ⟨hl,h1⟩
  · omega
  · exact ho (hl.trans hat) (h1.trans hp)

theorem outgrown_done (ho : Outgrown H inMerkle h rs) :
    ((h.addResults H rs).done H).2 ≠ some inMerkle := by
  obtain ⟨be,r,af,rfl,hat,_,hg⟩ := ho
  intro hd
  rw [addResults,foldl_append,foldl_cons] at hd
  have hr := add_results_reached (H := H) af (done_reached hd)
  have hle : inMerkle.maxLevel ≤ comparedLevel inMerkle := compared_level_le
  have hl : ((h.addResults H be).addResult H r).levels.length ≤ inMerkle.maxLevel :=
    hr.elim Nat.le_of_lt fun h => Nat.le_of_eq h.1
  omega

theorem merkle_judge (ha : Aligned inMerkle h ma) (rs : List VersionedKV) :
    judge (rangeQueryHashStep H inMerkle) (some h,ma) rs = .ok true ∧
      ((h.addResults H (rs.map toRead)).done H).2 = some inMerkle ∨
    judge (rangeQueryHashStep H inMerkle) (some h,ma) rs = .ok false ∧
      ((h.addResults H (rs.map toRead)).done H).2 ≠ some inMerkle ∧
      ¬ Outgrown H inMerkle h (rs.map toRead) ∨
    judge (rangeQueryHashStep H inMerkle) (some h,ma) rs =
      .error (.panic .indexOutOfRange) ∧ Outgrown H inMerkle h (rs.map toRead) := by
  induction rs generalizing h ma with
  | nil =>
    by_cases hd : (h.done H).2 = some inMerkle
    · exact .inl ⟨congrArg _ (decide_eq_true hd),hd⟩
    refine .inr (.inl ⟨congrArg _ (decide_eq_false hd),hd,?_⟩)
    rintro ⟨be,r,af,heq,_⟩
    exact absurd heq (by simp)
  | cons kv rs ih =>
    rw [map_cons,outgrown_cons]
    rcases match_next_aligned (H := H) ha (toRead kv) with
      ⟨matched',hnext,hst⟩ | ⟨hnext,hat,hof⟩ | ⟨hnext,ho⟩
    · have hs : rangeQueryHashStep H inMerkle (some h,ma) (some kv) =
          .ok (.inl (some (h.addResult H (toRead kv)),matched')) := by
        simp only [rangeQueryHashStep,hnext]
      have hn : ¬ Outgrows H inMerkle h (toRead kv) := by
        rintro ⟨hat,_,hg⟩
        have hle : inMerkle.maxLevel ≤ comparedLevel inMerkle := compared_level_le
        rcases hst with ⟨hlo,_⟩ | ⟨hl,_⟩ <;> omega
      rw [judge_next hs,or_iff_right hn]
      exact ih hst
    · have hs : rangeQueryHashStep H inMerkle (some h,ma) (some kv) = .ok (.inr false) := by
        simp only [rangeQueryHashStep,hnext]
      refine .inr (.inl ⟨by rw [judge,hs],?_,?_⟩)
      · intro hd
        have hle : inMerkle.maxLevel ≤ comparedLevel inMerkle := compared_level_le
        rcases add_results_reached (h := h.addResult H (toRead kv)) _ (done_reached hd) with
          hlt | ⟨_,hp⟩
        · dsimp only at hlt
          omega
        · exact hof hp
      · rintro (⟨hb,_,hg⟩ | ho)
        · omega
        · exact not_outgrown hat.ge (fun _ => hof) _ ho
    · have hs : rangeQueryHashStep H inMerkle (some h,ma) (some kv) =
          .error (.panic .indexOutOfRange) := by
        simp only [rangeQueryHashStep,hnext]
      exact .inr (.inr ⟨by rw [judge,hs],.inl ho⟩)

end

section
variable {H : HashFunc} {h : ResultsHelper (HashTree KVRead)} {results results' : List KVRead}

/-- All results so far, those in the trees and those that are pending. -/
def ResultsHelper.content (h : ResultsHelper (HashTree KVRead)) : List KVRead :=
  Merkle.content h.levels ++ h.pendingResults

theorem process_content : (h.processPendingResults trees).content = h.content := by
  simp only [ResultsHelper.content,processPendingResults,carry_content,append_nil]
  rfl

theorem add_content (r : KVRead) : (h.addResult trees r).content = h.content ++ [r] := by
  unfold addResult
  dsimp only
  split
  · rw [process_content]
    simp [ResultsHelper.content]
  · simp [ResultsHelper.content]

theorem add_all_content (rs : List KVRead) :
    (h.addResults trees rs).content = h.content ++ rs := by
  induction rs generalizing h with
  | nil => exact (append_nil _).symm
  | cons r rs ih => rw [addResults,foldl_cons,← addResults,ih,add_content,append_assoc,singleton_append]

theorem done_content (hd : (h.done trees).2 = some su) :
    HashTree.itemsOf su.maxLevelHashes = h.content := by
  unfold done at hd
  split at hd
  · cases hd
  obtain rfl := (Option.some.inj hd).symm
  split
  · rename_i hn
    simp [complete_items,ResultsHelper.content,List.isEmpty_iff.mp hn,HashTree.itemsOf]
  · rw [← process_content]
    simp [complete_items,ResultsHelper.content,processPendingResults,HashTree.itemsOf]

/-- The summary with the trees that are hashed in the place of their hashes has all results. -/
theorem summarize_content (hs : summarize trees md results = some su) :
    HashTree.itemsOf su.maxLevelHashes = results := by
  obtain ⟨h,hn,hd⟩ := bind_eq_some_iff.mp hs
  rw [done_content hd,add_all_content]
  unfold ResultsHelper.new at hn
  split at hn
  · cases hn
    rfl
  · cases hn

def ResultsHelper.hashed (H : HashFunc) (h : ResultsHelper (HashTree KVRead)) :
    RangeQueryResultsHelper :=
  ⟨h.pendingResults,h.levels.map (map (HashTree.hash H)),h.maxDegree,h.hashingEnabled,
    by simpa using h.leveled,h.branching⟩

theorem process_hashed : (h.hashed H).processPendingResults H =
    (h.processPendingResults trees).hashed H := by
  simp only [hashed,processPendingResults,ResultsHelper.mk.injEq,true_and,and_true]
  exact carry_hash (.leaf h.pendingResults) h.levels

theorem add_hashed (r : KVRead) : (h.hashed H).addResult H r = (h.addResult trees r).hashed H := by
  obtain ⟨pending,levels,degree,enabled,leveled,branching⟩ := h
  by_cases hf : (enabled && decide (degree < (pending ++ [r]).length)) = true
  · rw [show (ResultsHelper.mk pending levels degree enabled leveled branching).addResult trees r =
      processPendingResults trees ⟨pending ++ [r],levels,degree,enabled,leveled,branching⟩ from
        if_pos hf,← process_hashed]
    exact if_pos hf
  · rw [show (ResultsHelper.mk pending levels degree enabled leveled branching).addResult trees r =
      ⟨pending ++ [r],levels,degree,enabled,leveled,branching⟩ from if_neg hf]
    exact if_neg hf

theorem add_all_hashed (rs : List KVRead) :
    (h.hashed H).addResults H rs = (h.addResults trees rs).hashed H := by
  induction rs generalizing h with
  | nil => rfl
  | cons r rs ih => rw [addResults,foldl_cons,add_hashed,← addResults,ih]; rfl

theorem top_map {levels : List (List (HashTree KVRead))} :
    top (levels.map (map (HashTree.hash H))) = (top levels).map (HashTree.hash H) := by
  unfold top
  rw [getLast?_map]
  cases levels.getLast? <;> rfl

theorem done_hashed : ((h.hashed H).done H).2 = (h.done trees).2.map fun su =>
    ⟨su.maxDegree,su.maxLevel,su.maxLevelHashes.map (HashTree.hash H)⟩ := by
  have he : (h.hashed H).isEmpty = h.isEmpty := by
    simp [ResultsHelper.isEmpty,hashed,top_map]
  have hc (levels : List (List (HashTree KVRead))) :
      complete H h.maxDegree none (levels.map (map (HashTree.hash H))) =
        ((complete trees h.maxDegree none levels).1,
          (complete trees h.maxDegree none levels).2.map (HashTree.hash H)) :=
    complete_hash none levels
  unfold done
  rw [he]
  by_cases hf : (!h.hashingEnabled || h.isEmpty) = true
  · rw [if_pos hf]
    exact congrArg Prod.snd (if_pos hf)
  rw [if_neg hf]
  refine (congrArg Prod.snd (if_neg hf)).trans ?_
  dsimp only
  by_cases hp : h.pendingResults.isEmpty = true
  · have hq : (h.hashed H).pendingResults.isEmpty = true := hp
    rw [if_pos hp,if_pos hq]
    simp [hashed,hc]
  · have hq : ¬ (h.hashed H).pendingResults.isEmpty = true := hp
    rw [if_neg hp,if_neg hq,process_hashed]
    simp [hashed,hc]

theorem summarize_hashed (md : Nat) (results : List KVRead) : summarize H md results =
    (summarize trees md results).map fun su =>
      ⟨su.maxDegree,su.maxLevel,su.maxLevelHashes.map (HashTree.hash H)⟩ := by
  unfold summarize
  by_cases hb : 2 ≤ md
  · have hn (η : Type) : (ResultsHelper.new true md : Option (ResultsHelper η)) =
        some ⟨[],[[]],md,true,cons_ne_nil _ _,fun _ => hb⟩ := dif_pos fun _ => hb
    rw [hn,hn,bind_some,bind_some,← done_hashed,← add_all_hashed]
    rfl
  · have hn (η : Type) : (ResultsHelper.new true md : Option (ResultsHelper η)) = none :=
      dif_neg fun h => hb (h rfl)
    rw [hn,hn]
    rfl

/-- The trees whose hashes the summary of results has. -/
def forest (maxDegree : Nat) (results : List KVRead) : List (HashTree KVRead) :=
  (summarize trees maxDegree results).elim [] MerkleSummary.maxLevelHashes

/-- Two different inputs that are hashed for the summaries of the results have one hash. -/
def HashCollision (H : HashFunc) (info : ReadsInfo) (results results' : List KVRead) : Prop :=
  match info with
  | .readsMerkleHashes summary =>
    HashTree.Collide H (forest summary.maxDegree results) (forest summary.maxDegree results')
  | _ => False

theorem Records.unique (hr : Records H info results) (hr' : Records H info results') :
    results = results' ∨ HashCollision H info results results' := by
  cases info with
  | none | rawReads kr => exact .inl (hr.trans hr'.symm)
  | readsMerkleHashes su =>
    rw [Records,summarize_hashed] at hr hr'
    obtain ⟨ts,ht,rfl⟩ := map_eq_some_iff.mp hr
    obtain ⟨us,hu,heq⟩ := map_eq_some_iff.mp hr'
    rcases HashTree.same_hashes (MerkleSummary.mk.inj heq).2.2.symm with hs | hc
    · left
      rw [← summarize_content ht,← summarize_content hu,hs]
    · right
      rw [HashCollision,forest,forest,ht,hu]
      exact hc

end

section
variable (H : HashFunc)

def validateRangeQuery (db : Db) (updates : Batch) (ns : Bytes) (info : RangeQueryInfo) :
    Reading Failure Bool := do
  let itr ← CombinedIterator.new db updates ns info.startKey info.endKey (!info.itrExhausted)
  match info.readsInfo with
  | .readsMerkleHashes summary =>
    consume db updates (rangeQueryHashStep H summary)
      (ResultsHelper.new true summary.maxDegree,0) itr
  | .rawReads kvReads => consume db updates rangeQueryResultsStep kvReads itr
  | .none => consume db updates rangeQueryResultsStep [] itr

/-- What a query must record for the comparison with the results to crash. -/
inductive QueryCrash : ReadsInfo → List KVRead → Cause → Prop
  | nilVersion {results : List KVRead} (unversioned : Unversioned kvReads results) :
      QueryCrash (.rawReads kvReads) results .nilVersion
  | nilHelper {results : List KVRead} (low : summary.maxDegree < 2) :
      QueryCrash (.readsMerkleHashes summary) results .nilHelper
  | indexOutOfRange {results : List KVRead}
      (made : ResultsHelper.new true summary.maxDegree = some h)
      (outgrown : Outgrown H summary h results) :
      QueryCrash (.readsMerkleHashes summary) results .indexOutOfRange

variable {H}

theorem new_aligned {md : Nat}
    (hn : ResultsHelper.new true md = some h) : Aligned su h 0 := by
  unfold ResultsHelper.new at hn
  split at hn
  · obtain rfl := Option.some.inj hn
    by_cases hl : 1 < su.maxLevel
    · exact .inl ⟨hl,rfl⟩
    refine .inr ⟨?_,rfl,List.nil_prefix⟩
    simp only [comparedLevel,length_singleton]
    omega
  · cases hn

def Outcome (H : HashFunc) (info : ReadsInfo) (results : List KVRead) (out : Except Failure Bool) :
    Prop :=
  out = .ok true ∧ Records H info results ∨
  out = .ok false ∧ ¬ Records H info results ∧ (∀ cause, ¬ QueryCrash H info results cause) ∨
  ∃ cause, out = .error (.panic cause) ∧ QueryCrash H info results cause

theorem raw_outcome (kr : List KVRead) (rs : List VersionedKV) :
    Outcome H (.rawReads kr) (rs.map toRead)
      (judge rangeQueryResultsStep kr rs) := by
  rcases raw_judge kr rs with h | ⟨hj,hne,hn⟩ | ⟨hj,ho⟩
  · exact .inl h
  · refine .inr (.inl ⟨hj,hne,?_⟩)
    rintro ca ⟨ho⟩
    exact hn ho
  · exact .inr (.inr ⟨_,hj,.nilVersion ho⟩)

theorem hash_outcome (summary : QueryReadsMerkleSummary) (rs : List VersionedKV) :
    Outcome H (.readsMerkleHashes summary) (rs.map toRead)
      (judge (rangeQueryHashStep H summary)
        (ResultsHelper.new true summary.maxDegree,0) rs) := by
  cases hn : ResultsHelper.new true summary.maxDegree with
  | none =>
    have hl : summary.maxDegree < 2 := by
      simpa [ResultsHelper.new] using hn
    refine .inr (.inr ⟨.nilHelper,?_,.nilHelper hl⟩)
    cases rs <;> rfl
  | some h =>
    have hr : Records H (.readsMerkleHashes summary) (rs.map toRead) ↔
        ((h.addResults H (rs.map toRead)).done H).2 = some summary := by
      rw [Records,summarize,hn]
      exact Iff.rfl
    rw [Outcome,hr]
    rcases merkle_judge (H := H) (new_aligned hn) rs with hok | ⟨hj,hne,hno⟩ | ⟨hj,ho⟩
    · exact .inl hok
    · refine .inr (.inl ⟨hj,hne,?_⟩)
      rintro ca (_ | l | ⟨ma,ho⟩)
      · rw [ResultsHelper.new,dif_neg fun h => absurd (h rfl) (Nat.not_le.mpr l)] at hn
        cases hn
      · obtain rfl := Option.some.inj (hn.symm.trans ma)
        exact hno ho
    · exact .inr (.inr ⟨_,hj,.indexOutOfRange hn ho⟩)

theorem range_query_outcome (H : HashFunc) (db : Db) (us : Batch) (ns : Bytes)
    (io : RangeQueryInfo) :
    ∃ rs, Rerun (us.apply db.state) ns io.startKey io.endKey (!io.itrExhausted)
        rs ∧
      Outcome H io.readsInfo rs (validateRangeQuery H db us ns io).result := by
  obtain ⟨it,hn,hr⟩ :=
    new_rerun db us ns io.startKey io.endKey (!io.itrExhausted)
  refine ⟨_,hr,?_⟩
  rw [validateRangeQuery,result_bind_ok hn]
  cases io.readsInfo with
  | none =>
    dsimp only
    rw [consume_result results_step_decides]
    rcases raw_outcome (H := H) [] (it.results db us) with h | ⟨hj,hne,_⟩ | ⟨ca,_,hc⟩
    · exact .inl h
    · exact .inr (.inl ⟨hj,hne,fun _ hc => nomatch hc⟩)
    · cases hc with
      | nilVersion ho => exact absurd ho unversioned_of_nil
  | rawReads kr =>
    dsimp only
    rw [consume_result results_step_decides]
    exact raw_outcome kr (it.results db us)
  | readsMerkleHashes su =>
    dsimp only
    rw [consume_result hash_step_decides]
    exact hash_outcome su (it.results db us)

theorem QueryCrash.not_recorded {results : List KVRead} (h : QueryCrash H info results ca) :
    ¬ Records H info results := by
  cases h with
  | nilVersion un =>
    rintro rfl
    obtain ⟨be,r,af,re,rt,hrd,hre,_,hn,hs⟩ := un
    obtain ⟨rfl,_⟩ := List.cons.inj (append_cancel_left (hrd.symm.trans hre))
    exact hs hn
  | nilHelper l =>
    intro hr
    rw [Records,summarize,ResultsHelper.new,
      dif_neg fun h => absurd (h rfl) (Nat.not_le.mpr l)] at hr
    cases hr
  | indexOutOfRange ma o =>
    intro hr
    rw [Records,summarize,ma] at hr
    exact outgrown_done o hr

theorem QueryCrash.unique {rs : List KVRead} (h : QueryCrash H info rs ca)
    (h' : QueryCrash H info rs cause') : ca = cause' := by
  cases h with
  | nilVersion => cases h' with
    | nilVersion => rfl
  | nilHelper l => cases h' with
    | nilHelper => rfl
    | indexOutOfRange ma =>
      rw [ResultsHelper.new,dif_neg fun h => absurd (h rfl) (Nat.not_le.mpr l)] at ma
      cases ma
  | indexOutOfRange ma => cases h' with
    | nilHelper l =>
      rw [ResultsHelper.new,dif_neg fun h => absurd (h rfl) (Nat.not_le.mpr l)] at ma
      cases ma
    | indexOutOfRange => rfl

section
variable {db : Db} {us : Batch} {ns : Bytes} {io : RangeQueryInfo} {cause : Cause}

theorem range_query_passes : (validateRangeQuery H db us ns io).result = .ok true ↔
      ∃ results, Rerun (us.apply db.state) ns io.startKey io.endKey (!io.itrExhausted)
        results ∧ Records H io.readsInfo results := by
  obtain ⟨results,hre,ho⟩ := range_query_outcome H db us ns io
  constructor
  · intro ht
    rw [ht] at ho
    rcases ho with ⟨_,hr⟩ | ⟨hf,_⟩ | ⟨cause,he,_⟩
    · exact ⟨results,hre,hr⟩
    · cases hf
    · cases he
  · rintro ⟨r',hre',hr⟩
    obtain rfl := hre.unique hre'
    rcases ho with ⟨ht,_⟩ | ⟨_,hn,_⟩ | ⟨cause,_,hc⟩
    · exact ht
    · exact absurd hr hn
    · exact absurd hr hc.not_recorded

theorem range_query_panics : (validateRangeQuery H db us ns io).result = .error (.panic cause) ↔
      ∃ rs, Rerun (us.apply db.state) ns io.startKey io.endKey (!io.itrExhausted)
        rs ∧ QueryCrash H io.readsInfo rs cause := by
  obtain ⟨rs,hr,ho⟩ := range_query_outcome H db us ns io
  constructor
  · intro hp
    rw [hp] at ho
    rcases ho with ⟨ht,_⟩ | ⟨hf,_⟩ | ⟨cause,he,hc⟩
    · cases ht
    · cases hf
    · cases he
      exact ⟨rs,hr,hc⟩
  · rintro ⟨r',hr',hc⟩
    obtain rfl := hr.unique hr'
    rcases ho with ⟨_,hrc⟩ | ⟨_,_,hn⟩ | ⟨c',he,hc'⟩
    · exact absurd hrc hc.not_recorded
    · exact absurd hc (hn cause)
    · rw [he,hc.unique hc']

end

/-- The comparison level by level is that of the whole summaries, exactly if the tree does not
outgrow the recorded one with all hashes matched. -/
theorem hash_validator_compares {recorded : List KVRead}
    (made : summarize H summary.maxDegree recorded = some summary) (db : Db) (updates : Batch)
    (itr : CombinedIterator) : (consume db updates (rangeQueryHashStep H summary)
      (ResultsHelper.new true summary.maxDegree,0) itr).result =
        .ok (decide (summarize H summary.maxDegree ((itr.results db updates).map toRead) =
          some summary)) ↔
    ∀ h, ResultsHelper.new true summary.maxDegree = some h →
      ¬ Outgrown H summary h ((itr.results db updates).map toRead) := by
  rw [consume_result hash_step_decides]
  rcases hash_outcome (H := H) summary (itr.results db updates) with ⟨h,hr⟩ | ⟨h,hr,hc⟩ | ⟨ca,h,hc⟩
  · refine iff_of_true (h.trans (congrArg _ (decide_eq_true (p := _ = _) hr).symm)) ?_
    exact fun _ hn ho => (QueryCrash.indexOutOfRange hn ho).not_recorded hr
  · refine iff_of_true (h.trans (congrArg _ (decide_eq_false (p := _ = _) hr).symm)) ?_
    exact fun _ hn ho => hc _ (.indexOutOfRange hn ho)
  · refine iff_of_false (by rw [h]; nofun) fun within => ?_
    cases hc with
    | nilHelper l => exact absurd made (QueryCrash.nilHelper l).not_recorded
    | indexOutOfRange hn o => exact absurd o (within _ hn)

end

def plainHash : HashFunc := computeCombinedHash id fun kvReads => kvReads.flatMap KVRead.key

def keysIterator (keys : List UInt8) : CombinedIterator :=
  ⟨.pub [97],[],false,keys.map fun k => ([k],⟨[5],[],⟨1,0⟩⟩),[],false⟩

def keysRead (keys : List UInt8) : List KVRead := keys.map fun k => ⟨[k],some ⟨1,0⟩⟩

theorem hash_validator_accepts :
    summarize plainHash 2 (keysRead [1,2,3,4,5,6]) = some ⟨2,1,[[1,2,3],[4,5,6]]⟩ ∧
    (consume emptyDb ∅ (rangeQueryHashStep plainHash ⟨2,1,[[1,2,3],[4,5,6]]⟩)
      (ResultsHelper.new true 2,0) (keysIterator [1,2,3,4,5,6])).result = .ok true := by
  have hm : summarize plainHash 2 (keysRead [1,2,3,4,5,6]) = some ⟨2,1,[[1,2,3],[4,5,6]]⟩ := rfl
  refine ⟨hm,(hash_validator_compares hm emptyDb ∅ (keysIterator [1,2,3,4,5,6])).mpr
    fun _ hn ho => ?_⟩
  obtain rfl := Option.some.inj hn
  exact outgrown_done ho rfl

/-- Three results more, and the tree is one level higher than the recorded one. -/
theorem outgrown_tree_panics :
    summarize plainHash 2 (keysRead [1,2,3,4,5,6]) = some ⟨2,1,[[1,2,3],[4,5,6]]⟩ ∧
    (consume emptyDb ∅ (rangeQueryHashStep plainHash ⟨2,1,[[1,2,3],[4,5,6]]⟩)
      (ResultsHelper.new true 2,0) (keysIterator [1,2,3,4,5,6,7,8,9])).result =
        .error (.panic .indexOutOfRange) :=
  ⟨rfl,rfl⟩

end PluggableHcs.Txmgmt
