import Cirradio.CallRuns
import Cirradio.OrderedMaps
import Mathlib.Algebra.Group.Basic
import Mathlib.Algebra.Ring.Rat
import Mathlib.Data.Finset.Dedup
import Mathlib.Data.Finset.Card
import Mathlib.Data.List.TakeWhile

/-!
# The TRANSEC configuration

Settings with their ranges, and a table of the peers heard with the power that reaches each. The
power is stored when a beacon comes in, with the margin of that time. The table takes no new peer
once it is full.
-/

namespace Cirradio.Transec
open CallRuns OrderedMaps

structure PeerLink (P : Type) where
  peer : UInt32
  rssiDbm : P
  requiredPowerDbm : P
  lastBeaconMs : UInt64
  deriving DecidableEq, Repr

structure TransecConfig (P : Type) where
  peers : Std.ExtTreeMap UInt32 (PeerLink P)
  interleaverDepth : Int
  hopRate : Int
  linkMarginDb : P

/-- The value brought into a range. -/
def clamp (value low high : Int) : Int :=
  if value < low then low else if high < value then high else value

theorem clamp_range {low high : Int} (h : low ≤ high) (value : Int) :
    low ≤ clamp value low high ∧ clamp value low high ≤ high := by
  unfold clamp
  split
  · omega
  · split <;> omega

namespace TransecConfig

def kMaxPeers : ℕ := 256

def kEntryExpiryMs : ℕ := 300000

variable {P : Type} [Add P] [IntCast P]

def kDefaultRssiDbm : P := ((-90 : Int) : P)

def new : TransecConfig P := ⟨∅, 10, 100, ((10 : Int) : P)⟩

def updatePeerRssi (c : TransecConfig P) (peer : UInt32) (rssiDbm : P) (nowMs : UInt64) :
    TransecConfig P :=
  if kMaxPeers ≤ c.peers.size ∧ peer ∉ c.peers then c
  else
    { c with peers := c.peers.insert peer ⟨peer, rssiDbm, rssiDbm + c.linkMarginDb, nowMs⟩ }

def requiredPowerDbm (c : TransecConfig P) (peer : UInt32) : P :=
  match c.peers[peer]? with
  | none => kDefaultRssiDbm + c.linkMarginDb
  | some entry => entry.requiredPowerDbm

/-- The peer has been silent for longer than the expiry. -/
def stale (nowMs : UInt64) (entry : PeerLink P) : Bool :=
  decide (entry.lastBeaconMs < nowMs) &&
    decide (kEntryExpiryMs < (nowMs - entry.lastBeaconMs).toNat)

def evictStalePeers (c : TransecConfig P) (nowMs : UInt64) : TransecConfig P :=
  { c with peers := c.peers.filter fun _ entry => !stale nowMs entry }

def peerCount (c : TransecConfig P) : ℕ := c.peers.size

def setInterleaverDepth (c : TransecConfig P) (d : Int) : TransecConfig P :=
  { c with interleaverDepth := clamp d 1 32 }

def setHopRate (c : TransecConfig P) (r : Int) : TransecConfig P :=
  { c with hopRate := clamp r 1 1000 }

def setLinkMarginDb (c : TransecConfig P) (m : P) : TransecConfig P :=
  { c with linkMarginDb := m }

omit [IntCast P] in
/-- A beacon is recorded, unless the table is full and the peer is not in it. -/
theorem getElem?_updatePeerRssi (c : TransecConfig P) (peer p : UInt32) (rssiDbm : P)
    (nowMs : UInt64) :
    (c.updatePeerRssi peer rssiDbm nowMs).peers[p]? =
      if p = peer ∧ (c.peers.size < kMaxPeers ∨ peer ∈ c.peers) then
        some ⟨peer, rssiDbm, rssiDbm + c.linkMarginDb, nowMs⟩
      else c.peers[p]? := by
  unfold updatePeerRssi
  split
  · next hfull =>
    rw [if_neg]
    rintro ⟨-, hsize | hmem⟩
    · omega
    · exact hfull.2 hmem
  · next hroom =>
    have hroom' : c.peers.size < kMaxPeers ∨ peer ∈ c.peers := by
      by_contra hno
      obtain ⟨hsize, hmem⟩ := not_or.mp hno
      exact hroom ⟨Nat.le_of_not_lt hsize, hmem⟩
    rw [getElem?_insert_ite]
    simp only [hroom', and_true]

omit [IntCast P] in
@[simp] theorem updatePeerRssi_linkMarginDb (c : TransecConfig P) (peer : UInt32) (rssiDbm : P)
    (nowMs : UInt64) : (c.updatePeerRssi peer rssiDbm nowMs).linkMarginDb = c.linkMarginDb := by
  unfold updatePeerRssi
  split <;> rfl

/-- What a node does with its configuration. -/
inductive Call (P : Type)
  | updatePeerRssi (peer : UInt32) (rssiDbm : P) (nowMs : UInt64)
  | evictStalePeers (nowMs : UInt64)
  | setLinkMarginDb (m : P)
  | setHopRate (r : Int)
  | setInterleaverDepth (d : Int)

def call (c : TransecConfig P) : Call P → TransecConfig P × Unit
  | .updatePeerRssi peer rssiDbm nowMs => (c.updatePeerRssi peer rssiDbm nowMs, ())
  | .evictStalePeers nowMs => (c.evictStalePeers nowMs, ())
  | .setLinkMarginDb m => (c.setLinkMarginDb m, ())
  | .setHopRate r => (c.setHopRate r, ())
  | .setInterleaverDepth d => (c.setInterleaverDepth d, ())

/-- The RSSI last recorded for a peer, or the default. -/
def rssiOf (c : TransecConfig P) (p : UInt32) : P :=
  (c.peers[p]?.map PeerLink.rssiDbm).getD kDefaultRssiDbm

/-- The power for every peer is its RSSI with the current margin. -/
def FollowsInputs (c : TransecConfig P) : Prop :=
  ∀ p, c.requiredPowerDbm p = c.rssiOf p + c.linkMarginDb

theorem followsInputs_iff (c : TransecConfig P) :
    FollowsInputs c ↔ ∀ (p : UInt32) (entry : PeerLink P), c.peers[p]? = some entry →
      entry.requiredPowerDbm = entry.rssiDbm + c.linkMarginDb := by
  constructor
  · intro h p entry hentry
    have hp := h p
    unfold requiredPowerDbm rssiOf at hp
    rwa [hentry] at hp
  · intro h p
    unfold requiredPowerDbm rssiOf
    cases hentry : c.peers[p]? with
    | none => rfl
    | some entry => exact h p entry hentry

theorem followsInputs_new : FollowsInputs (new : TransecConfig P) := by
  apply (followsInputs_iff _).mpr
  intro p entry hentry
  change (∅ : Std.ExtTreeMap UInt32 (PeerLink P))[p]? = some entry at hentry
  rw [Std.ExtTreeMap.getElem?_empty] at hentry
  cases hentry

theorem FollowsInputs.updatePeerRssi {c : TransecConfig P} (h : FollowsInputs c) (peer : UInt32)
    (rssiDbm : P) (nowMs : UInt64) : FollowsInputs (c.updatePeerRssi peer rssiDbm nowMs) := by
  rw [followsInputs_iff] at h ⊢
  intro p entry hentry
  rw [updatePeerRssi_linkMarginDb]
  rw [getElem?_updatePeerRssi] at hentry
  split at hentry
  · cases hentry
    rfl
  · exact h p entry hentry

theorem FollowsInputs.evictStalePeers {c : TransecConfig P} (h : FollowsInputs c)
    (nowMs : UInt64) : FollowsInputs (c.evictStalePeers nowMs) := by
  rw [followsInputs_iff] at h ⊢
  intro p entry hentry
  change (c.peers.filter fun _ entry => !stale nowMs entry)[p]? = some entry at hentry
  rw [Std.ExtTreeMap.getElem?_filter'] at hentry
  exact h p entry (Option.filter_eq_some_iff.mp hentry).1

/-- The call keeps the margin, or no peer is stored. -/
def KeepsMargin (c : TransecConfig P) (x : Call P) : Prop :=
  ∀ m, x = .setLinkMarginDb m → m = c.linkMarginDb ∨ c.peerCount = 0

/-- With the stored powers right, another margin makes them wrong, unless there are none. -/
theorem followsInputs_setLinkMarginDb [IsLeftCancelAdd P] {c : TransecConfig P}
    (h : FollowsInputs c) (m : P) :
    FollowsInputs (c.setLinkMarginDb m) ↔ m = c.linkMarginDb ∨ c.peerCount = 0 := by
  rw [followsInputs_iff] at h ⊢
  constructor
  · intro hnew
    refine or_iff_not_imp_left.mpr fun hmargin => ?_
    apply Std.ExtTreeMap.eq_empty_iff_size_eq_zero.mp
    apply Std.ExtTreeMap.eq_empty_iff_forall_not_mem.mpr
    intro p hp
    obtain ⟨entry, hentry⟩ := Option.isSome_iff_exists.mp
      (Std.ExtTreeMap.mem_iff_isSome_getElem?.mp hp)
    -- one stored power cannot carry two margins
    exact hmargin (add_left_cancel ((hnew p entry hentry).symm.trans (h p entry hentry)))
  · rintro (rfl | hempty) p entry hentry
    · exact h p entry hentry
    · have hnone : c.peers = ∅ := Std.ExtTreeMap.eq_empty_iff_size_eq_zero.mpr hempty
      change c.peers[p]? = some entry at hentry
      rw [hnone, Std.ExtTreeMap.getElem?_empty] at hentry
      cases hentry

theorem followsInputs_call [IsLeftCancelAdd P] (c : TransecConfig P) (x : Call P)
    (h : FollowsInputs c) : FollowsInputs (call c x).1 ↔ KeepsMargin c x := by
  cases x with
  | updatePeerRssi peer rssiDbm nowMs =>
    exact iff_of_true (h.updatePeerRssi peer rssiDbm nowMs) fun m hm => by cases hm
  | evictStalePeers nowMs =>
    exact iff_of_true (h.evictStalePeers nowMs) fun m hm => by cases hm
  | setLinkMarginDb m =>
    refine (followsInputs_setLinkMarginDb h m).trans ⟨?_, fun hkeeps => hkeeps m rfl⟩
    intro hkeeps m' hm
    cases hm
    exact hkeeps
  | setHopRate r => exact iff_of_true h fun m hm => by cases hm
  | setInterleaverDepth d => exact iff_of_true h fun m hm => by cases hm

/-- In every run the powers follow RSSI and margin exactly if the margin is not changed while
peers are stored. -/
theorem required_power_follows (calls : List (Call ℚ)) :
    EveryState call new FollowsInputs calls ↔ EveryCall call new KeepsMargin calls :=
  everyState_iff_everyCall call new followsInputs_new followsInputs_call calls

/-- A beacon, and then another margin. -/
theorem required_power_follows_stale :
    ¬ EveryState call (new : TransecConfig ℚ) FollowsInputs
      [.updatePeerRssi 1 (-60) 0, .setLinkMarginDb 5] := by
  intro hfollows
  have hkeeps := (followsInputs_call _ (.setLinkMarginDb 5) (hfollows 1)).mp (hfollows 2)
  rcases hkeeps 5 rfl with hmargin | hcount
  · revert hmargin
    decide
  · revert hcount
    decide

/-- A beacon as a node hears it. -/
structure BeaconEvent (P : Type) where
  peer : UInt32
  rssiDbm : P
  nowMs : UInt64

/-- What the EMCON manager does with a beacon, at the time of its clock. -/
def onBeaconRssi (c : TransecConfig P) (b : BeaconEvent P) : TransecConfig P × Unit :=
  (c.updatePeerRssi b.peer b.rssiDbm b.nowMs, ())

/-- The peers heard. -/
def heard (events : List (BeaconEvent P)) : Finset UInt32 :=
  (events.map BeaconEvent.peer).toFinset

/-- The peers heard before the first beacon of a peer. -/
def heardBefore (events : List (BeaconEvent P)) (p : UInt32) : Finset UInt32 :=
  ((events.map BeaconEvent.peer).takeWhile (· != p)).toFinset

omit [Add P] [IntCast P] in
theorem heard_concat (events : List (BeaconEvent P)) (b : BeaconEvent P) :
    heard (events ++ [b]) = insert b.peer (heard events) := by
  unfold heard
  rw [List.map_append, List.toFinset_append, List.map_singleton, List.toFinset_cons]
  simp [Finset.union_comm]

omit [Add P] [IntCast P] in
theorem heardBefore_append {events : List (BeaconEvent P)} {p : UInt32} (h : p ∈ heard events)
    (more : List (BeaconEvent P)) : heardBefore (events ++ more) p = heardBefore events p := by
  unfold heardBefore
  rw [List.map_append, List.takeWhile_append, if_neg]
  intro hall
  have hp : p ∈ (events.map BeaconEvent.peer).takeWhile (· != p) := by
    rw [(List.takeWhile_prefix _).eq_of_length hall]
    exact List.mem_toFinset.mp h
  simpa using List.mem_takeWhile_imp hp

omit [Add P] [IntCast P] in
theorem heardBefore_concat {events : List (BeaconEvent P)} {b : BeaconEvent P}
    (h : b.peer ∉ heard events) : heardBefore (events ++ [b]) b.peer = heard events := by
  have hall : ∀ q ∈ events.map BeaconEvent.peer, (q != b.peer) = true := by
    intro q hq
    rw [bne_iff_ne]
    rintro rfl
    exact h (List.mem_toFinset.mpr hq)
  unfold heardBefore heard
  rw [List.map_append, List.takeWhile_append_of_pos hall]
  simp

omit [Add P] [IntCast P] in
/-- The peers with an entry. -/
def tracked (c : TransecConfig P) : Finset UInt32 := c.peers.keys.toFinset

omit [Add P] [IntCast P] in
theorem mem_tracked {c : TransecConfig P} {p : UInt32} : p ∈ c.tracked ↔ p ∈ c.peers := by
  rw [tracked, List.mem_toFinset, Std.ExtTreeMap.mem_keys]

omit [Add P] [IntCast P] in
theorem card_tracked (c : TransecConfig P) : c.tracked.card = c.peers.size := by
  rw [tracked, List.toFinset_card_of_nodup Std.ExtTreeMap.nodup_keys, Std.ExtTreeMap.length_keys]

omit [IntCast P] in
theorem mem_updatePeerRssi {c : TransecConfig P} {peer p : UInt32} {rssiDbm : P}
    {nowMs : UInt64} : p ∈ (c.updatePeerRssi peer rssiDbm nowMs).peers ↔
      p ∈ c.peers ∨ p = peer ∧ c.peers.size < kMaxPeers := by
  unfold updatePeerRssi
  split
  · next hfull =>
    refine (or_iff_left ?_).symm
    rintro ⟨-, hsize⟩
    omega
  · next hroom =>
    rw [mem_insert_iff]
    constructor
    · rintro (rfl | hp)
      · refine or_iff_not_imp_left.mpr fun hout => ⟨rfl, Nat.lt_of_not_le fun hsize => ?_⟩
        exact hroom ⟨hsize, hout⟩
      · exact .inl hp
    · rintro (hp | ⟨hp, -⟩)
      · exact .inr hp
      · exact .inl hp

omit [IntCast P] in
theorem tracked_onBeaconRssi (c : TransecConfig P) (b : BeaconEvent P) :
    (c.onBeaconRssi b).1.tracked =
      if c.tracked.card < kMaxPeers then insert b.peer c.tracked else c.tracked := by
  ext p
  rw [mem_tracked, card_tracked]
  refine mem_updatePeerRssi.trans ?_
  split
  · next hsize =>
    rw [Finset.mem_insert, mem_tracked, or_comm]
    exact or_congr_left (and_iff_left hsize)
  · next hsize =>
    rw [mem_tracked]
    exact or_iff_left fun h => hsize h.2

/-- The table holds the first peers heard. -/
structure TracksFirst (events : List (BeaconEvent P)) (c : TransecConfig P) : Prop where
  heard : c.tracked ⊆ heard events
  room : c.tracked.card < kMaxPeers → c.tracked = TransecConfig.heard events
  mem_iff : ∀ p ∈ TransecConfig.heard events,
    p ∈ c.tracked ↔ (heardBefore events p).card < kMaxPeers

omit [Add P] in
theorem tracksFirst_new : TracksFirst [] (new : TransecConfig P) where
  heard := by
    intro p hp
    rw [mem_tracked] at hp
    exact absurd hp Std.ExtTreeMap.not_mem_empty
  room _ := by
    ext p
    rw [mem_tracked]
    exact iff_of_false Std.ExtTreeMap.not_mem_empty (List.not_mem_nil ∘ List.mem_toFinset.mp)
  mem_iff p hp := absurd (List.mem_toFinset.mp hp) List.not_mem_nil

omit [IntCast P] in
theorem TracksFirst.onBeaconRssi {events : List (BeaconEvent P)} {c : TransecConfig P}
    (h : TracksFirst events c) (b : BeaconEvent P) :
    TracksFirst (events ++ [b]) (c.onBeaconRssi b).1 := by
  by_cases hroom : c.tracked.card < kMaxPeers
  · have hall := h.room hroom
    have htracked : (c.onBeaconRssi b).1.tracked = TransecConfig.heard (events ++ [b]) := by
      rw [tracked_onBeaconRssi, if_pos hroom, heard_concat, hall]
    refine ⟨htracked.subset, fun _ => htracked, fun p hp => ?_⟩
    rw [htracked]
    refine iff_of_true hp ?_
    by_cases hold : p ∈ TransecConfig.heard events
    · rw [heardBefore_append hold]
      exact (h.mem_iff p hold).mp (hall ▸ hold)
    · rw [heard_concat, Finset.mem_insert] at hp
      have hpeer : p = b.peer := hp.resolve_right hold
      subst hpeer
      rw [heardBefore_concat hold, ← hall]
      exact hroom
  · have htracked : (c.onBeaconRssi b).1.tracked = c.tracked := by
      rw [tracked_onBeaconRssi, if_neg hroom]
    have hmore : TransecConfig.heard events ⊆ TransecConfig.heard (events ++ [b]) := by
      rw [heard_concat]
      exact Finset.subset_insert _ _
    refine ⟨htracked ▸ h.heard.trans hmore, fun hcard => absurd (htracked ▸ hcard) hroom,
      fun p hp => ?_⟩
    rw [htracked]
    by_cases hold : p ∈ TransecConfig.heard events
    · rw [heardBefore_append hold]
      exact h.mem_iff p hold
    · rw [heard_concat, Finset.mem_insert] at hp
      have hpeer : p = b.peer := hp.resolve_right hold
      subst hpeer
      rw [heardBefore_concat hold]
      refine iff_of_false (fun hin => hold (h.heard hin)) ?_
      have hcard := Finset.card_le_card h.heard
      omega

theorem tracksFirst_run (events : List (BeaconEvent P)) :
    TracksFirst events (after TransecConfig.onBeaconRssi new events) :=
  run_induction TransecConfig.onBeaconRssi new TracksFirst tracksFirst_new
    (fun _ b h => h.onBeaconRssi b) events

/-- The entry of a peer is that of the beacon. -/
def Records (c : TransecConfig P) (b : BeaconEvent P) : Prop :=
  ∃ entry, c.peers[b.peer]? = some entry ∧ entry.rssiDbm = b.rssiDbm ∧
    entry.lastBeaconMs = b.nowMs

omit [IntCast P] in
theorem records_iff (c : TransecConfig P) (b : BeaconEvent P) :
    Records (c.onBeaconRssi b).1 b ↔ b.peer ∈ (c.onBeaconRssi b).1.tracked := by
  rw [mem_tracked, Std.ExtTreeMap.mem_iff_isSome_getElem?]
  unfold Records
  change (∃ entry, (c.updatePeerRssi b.peer b.rssiDbm b.nowMs).peers[b.peer]? = some entry ∧ _) ↔
    (c.updatePeerRssi b.peer b.rssiDbm b.nowMs).peers[b.peer]?.isSome = true
  rw [getElem?_updatePeerRssi]
  by_cases hstored : c.peers.size < kMaxPeers ∨ b.peer ∈ c.peers
  · rw [if_pos ⟨rfl, hstored⟩]
    simp
  · have hnone : c.peers[b.peer]? = none := by
      apply Std.ExtTreeMap.getElem?_eq_none
      exact (not_or.mp hstored).2
    rw [if_neg fun h => hstored h.2, hnone]
    simp

/-- Other peers heard within the expiry up to a beacon. -/
def recentOthers (events : List (BeaconEvent P)) (b : BeaconEvent P) : Finset UInt32 :=
  ((events.filter fun e => e.peer != b.peer && decide (e.nowMs ≤ b.nowMs) &&
    decide (b.nowMs.toNat - e.nowMs.toNat ≤ kEntryExpiryMs)).map BeaconEvent.peer).toFinset

/-- After each beacon its peer is tracked, unless the table is full of peers that are active. -/
def TracksActive (events : List (BeaconEvent P)) : Prop :=
  ∀ i b, events[i]? = some b →
    Records (after TransecConfig.onBeaconRssi new (events.take (i + 1))) b ∨
      kMaxPeers ≤ (recentOthers (events.take i) b).card

/-- A beacon is of one of the first peers heard, or comes while as many are active. -/
def FirstOrCrowded (events : List (BeaconEvent P)) : Prop :=
  ∀ i b, events[i]? = some b →
    (heardBefore events b.peer).card < kMaxPeers ∨
      kMaxPeers ≤ (recentOthers (events.take i) b).card

theorem records_run_iff {events : List (BeaconEvent P)} {i : ℕ} {b : BeaconEvent P}
    (hb : events[i]? = some b) :
    Records (after TransecConfig.onBeaconRssi new (events.take (i + 1))) b ↔
      (heardBefore events b.peer).card < kMaxPeers := by
  have hfirst := tracksFirst_run (events.take (i + 1))
  have hheard : b.peer ∈ heard (events.take (i + 1)) := by
    rw [List.take_add_one, hb, Option.toList_some, heard_concat]
    exact Finset.mem_insert_self _ _
  have hbefore : heardBefore events b.peer = heardBefore (events.take (i + 1)) b.peer := by
    rw [← heardBefore_append hheard (events.drop (i + 1)), List.take_append_drop]
  rw [hbefore, ← hfirst.mem_iff b.peer hheard, after_take_succ TransecConfig.onBeaconRssi new hb]
  exact records_iff _ b

/-- Every beacon's peer is tracked, unless as many others are active, exactly if this is so for
the beacons of all but the first peers heard. -/
theorem active_peers_tracked (events : List (BeaconEvent P)) :
    TracksActive events ↔ FirstOrCrowded events :=
  forall_congr' fun _ => forall_congr' fun _ => forall_congr' fun hb =>
    or_congr_left (records_run_iff hb)

/-- A table full of peers. -/
def crowd : List (BeaconEvent ℚ) := (List.range kMaxPeers).map fun i => ⟨.ofNat i, -70, 0⟩

/-- One more peer, when the others have been silent for longer than the expiry. -/
def latecomer : BeaconEvent ℚ := ⟨256, -70, 300001⟩

theorem eq_zero_of_mem_crowd {e : BeaconEvent ℚ} (h : e ∈ crowd) : e.nowMs = 0 := by
  obtain ⟨i, -, rfl⟩ := List.mem_map.mp h
  rfl

theorem card_heard_crowd : (heard crowd).card = kMaxPeers := by
  unfold heard crowd
  rw [List.map_map, List.toFinset_card_of_nodup, List.length_map, List.length_range]
  refine List.Nodup.map_on (fun i hi j hj hij => ?_) List.nodup_range
  have hi' : i < kMaxPeers := List.mem_range.mp hi
  have hj' : j < kMaxPeers := List.mem_range.mp hj
  have hnat : i % 2 ^ 32 = j % 2 ^ 32 := by
    simpa using congrArg UInt32.toNat hij
  unfold kMaxPeers at hi' hj'
  omega

/-- The silent peers keep the new one out. -/
theorem active_peers_tracked_silent :
    (crowd ++ [latecomer]).Pairwise (fun b b' => b.nowMs ≤ b'.nowMs) ∧
      ¬ TracksActive (crowd ++ [latecomer]) := by
  have hnew : latecomer.peer ∉ heard crowd := by
    intro hmem
    obtain ⟨e, he, hpeer⟩ := List.mem_map.mp (List.mem_toFinset.mp hmem)
    obtain ⟨i, hi, rfl⟩ := List.mem_map.mp he
    have hlt : i < kMaxPeers := List.mem_range.mp hi
    have hnat : i % 2 ^ 32 = 256 := by
      simpa [latecomer] using congrArg UInt32.toNat hpeer
    unfold kMaxPeers at hlt
    omega
  refine ⟨List.pairwise_append.mpr ⟨?_, List.pairwise_singleton _ _, fun b hb b' hb' => ?_⟩, ?_⟩
  · rw [List.pairwise_iff_forall_sublist]
    intro b b' hsub
    rw [eq_zero_of_mem_crowd (hsub.subset List.mem_cons_self),
      eq_zero_of_mem_crowd (hsub.subset (by simp))]
    exact UInt64.le_refl 0
  · rw [eq_zero_of_mem_crowd hb, List.mem_singleton.mp hb']
    decide
  · intro htracks
    have hlast : (crowd ++ [latecomer])[crowd.length]? = some latecomer :=
      List.getElem?_concat_length
    rcases htracks _ _ hlast with hrecords | hrecent
    · have hbefore := (records_run_iff hlast).mp hrecords
      rw [heardBefore_concat hnew, card_heard_crowd] at hbefore
      exact absurd hbefore (Nat.lt_irrefl _)
    · have hnone : recentOthers crowd latecomer = ∅ := by
        unfold recentOthers
        rw [List.filter_eq_nil_iff.mpr]
        · rfl
        · intro e he
          rw [eq_zero_of_mem_crowd he]
          simp [kEntryExpiryMs, latecomer]
      rw [List.take_left, hnone] at hrecent
      exact absurd hrecent (by decide)

end TransecConfig
end Cirradio.Transec
