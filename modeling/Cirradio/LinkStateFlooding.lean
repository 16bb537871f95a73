import Cirradio.LinkAdjacency
import Cirradio.MeshRouter

/-!
# Advertisements between two routers

One router changes its links and the other gets the advertisement after each change. The
sequence number in the advertisements is that of a new router for ever, so the other
router takes the first one and finds all later ones stale.
-/

namespace Cirradio.Network
open OrderedMaps WhileLoops

namespace MeshRouter
variable {Q : Type}

inductive NeighborCall (Q : Type) where
  | updateNeighbor (neighborId : UInt32) (quality : Q)
  | removeNeighbor (neighborId : UInt32)
  deriving DecidableEq, Repr

namespace NeighborCall

/-- The links after the call. -/
def effect (links : Std.ExtTreeMap UInt32 Q) : NeighborCall Q → Std.ExtTreeMap UInt32 Q
  | .updateNeighbor id q => links.insert id q
  | .removeNeighbor id => links.erase id

/-- The call leaves what a first call made of no links. -/
def Repeats : NeighborCall Q → NeighborCall Q → Prop
  | .updateNeighbor id q, .updateNeighbor id' q' => id' = id ∧ q' = q
  | .updateNeighbor id _, .removeNeighbor id' => id' ≠ id
  | .removeNeighbor _, .updateNeighbor _ _ => False
  | .removeNeighbor _, .removeNeighbor _ => True

theorem effect_empty_iff (c : NeighborCall Q) :
    c.effect ∅ = ∅ ↔ ∃ id, c = .removeNeighbor id := by
  cases c with
  | updateNeighbor id q =>
    constructor
    · intro h
      have hid := congrArg (fun links => links[id]?) h
      simp [effect] at hid
    · rintro ⟨_, h⟩
      cases h
  | removeNeighbor id => exact ⟨fun _ => ⟨id, rfl⟩, fun _ => Std.ExtTreeMap.erase_empty⟩

theorem effect_eq_iff_repeats (first c : NeighborCall Q) :
    c.effect (first.effect ∅) = first.effect ∅ ↔ first.Repeats c := by
  cases first with
  | removeNeighbor id =>
    have hempty : (removeNeighbor id).effect (∅ : Std.ExtTreeMap UInt32 Q) = ∅ :=
      (effect_empty_iff _).mpr ⟨id, rfl⟩
    rw [hempty, effect_empty_iff]
    cases c with
    | updateNeighbor id' q' =>
      constructor
      · rintro ⟨_, h⟩
        cases h
      · exact False.elim
    | removeNeighbor id' => exact ⟨fun _ => trivial, fun _ => ⟨id', rfl⟩⟩
  | updateNeighbor id q =>
    cases c with
    | updateNeighbor id' q' =>
      constructor
      · intro h
        have hid := congrArg (fun links => links[id']?) h
        simp only [effect, getElem?_insert_ite, if_true] at hid
        split at hid
        · next heq => exact ⟨heq, Option.some.inj hid⟩
        · simp at hid
      · rintro ⟨rfl, rfl⟩
        apply Std.ExtTreeMap.ext_getElem?
        intro n
        simp only [effect, getElem?_insert_ite]
        split <;> rfl
    | removeNeighbor id' =>
      constructor
      · rintro h rfl
        have hid := congrArg (fun links => links[id']?) h
        simp [effect] at hid
      · intro hne
        apply Std.ExtTreeMap.ext_getElem?
        intro n
        simp only [effect, getElem?_erase_ite, getElem?_insert_ite]
        by_cases hn : n = id'
        · have hid : n ≠ id := fun h => hne (hn.symm.trans h)
          rw [if_pos hn, if_neg hid, Std.ExtTreeMap.getElem?_empty]
        · rw [if_neg hn]

end NeighborCall

section Exchange
variable [LT Q] [DecidableLT Q] [One Q] [Mul Q] [Zero Q]

def change (limit : ℕ) (r : MeshRouter Q) : NeighborCall Q → Option (MeshRouter Q)
  | .updateNeighbor id q => r.updateNeighbor limit id q
  | .removeNeighbor id => r.removeNeighbor limit id

/-- A change at the sender and the delivery of the advertisement after it. -/
structure Exchange (Q : Type) where
  before : MeshRouter Q
  sender : MeshRouter Q
  receiver : MeshRouter Q
  accepted : Bool

def exchange (limit : ℕ) (a b : MeshRouter Q) (now : ℕ) (call : NeighborCall Q) :
    Option (Exchange Q) := do
  let a' ← a.change limit call
  let (b', accepted) ← b.processAdvertisement limit (a'.generateAdvertisement now)
  some ⟨a, a', b', accepted⟩

/-- A run of changes at one time each, with a delivery after each. -/
def exchanges (limit : ℕ) (a b : MeshRouter Q) :
    List (ℕ × NeighborCall Q) → Option (List (Exchange Q))
  | [] => some []
  | (now, call) :: calls => do
    let e ← exchange limit a b now call
    let es ← exchanges limit e.sender e.receiver calls
    some (e :: es)

end Exchange

/-- The receiver has the quality of each link of the sender. -/
def Holds (b a : MeshRouter Q) : Prop :=
  ∀ n q, a.directNeighbors[n]? = some q → b.table.link a.localId n = some q

/-- A change of the links is accepted, and the receiver has the links. -/
def Exchange.Kept (e : Exchange Q) : Prop :=
  (e.sender.directNeighbors ≠ e.before.directNeighbors → e.accepted = true) ∧
    e.receiver.Holds e.sender

/-- No change is lost in a run between new routers. -/
def NoChangeLost (Q : Type) [LT Q] [DecidableLT Q] [One Q] [Mul Q] [Zero Q] : Prop :=
  ∀ (a b : UInt32) (calls : List (ℕ × NeighborCall Q)), a ≠ b →
    ∃ es, Returns (fun limit => exchanges limit (.new a) (.new b) calls) es ∧
      ∀ e ∈ es, e.Kept

/-- What the calls after the first must be. -/
def Settled (a b : UInt32) : List (NeighborCall Q) → Prop
  | [] => True
  | first :: rest =>
    if a = b then ∀ c ∈ first :: rest, ∃ id, c = .removeNeighbor id
    else ∀ c ∈ rest, first.Repeats c

/-- A router whose table has its own links only. -/
structure Own (r : MeshRouter Q) : Prop where
  localId : r.table.localId = r.localId
  star : r.table.Star

theorem own_new (localId : UInt32) : (new localId : MeshRouter Q).Own :=
  ⟨rfl, RouteTable.star_new localId⟩

theorem star_congr {t t' : RouteTable Q} (hlocal : t'.localId = t.localId)
    (hadj : t'.adjacency = t.adjacency) (h : t.Star) : t'.Star := by
  intro u hu p hp
  rw [hlocal] at hu ⊢
  unfold RouteTable.linksOf at hp
  rw [hadj] at hp
  exact h u hu p hp

theorem Own.updateNeighbor [LT Q] [DecidableLT Q] [One Q] [Mul Q] [Zero Q] {limit : ℕ}
    {r r' : MeshRouter Q} (h : r.Own) {id : UInt32} {q : Q}
    (hcall : r.updateNeighbor limit id q = some r') : r'.Own := by
  obtain ⟨table, hrecompute, heq⟩ := Option.bind_eq_some_iff.mp hcall
  cases heq
  obtain ⟨s, -, hrest⟩ := Option.bind_eq_some_iff.mp hrecompute
  obtain ⟨routes, -, heq⟩ := Option.bind_eq_some_iff.mp hrest
  cases heq
  have hstar : (r.table.updateLink r.localId id q).Star := by
    rw [← h.localId]
    exact h.star.updateLink id q
  exact ⟨h.localId, star_congr rfl rfl hstar⟩

/-- The receiver takes no advertisement of the sender. -/
def Deaf (a b : MeshRouter Q) : Prop :=
  ∀ now, b.rejects (a.generateAdvertisement now) = true

theorem Deaf.congr {a a' b : MeshRouter Q} (h : Deaf a b) (hid : a'.localId = a.localId)
    (hsequence : a'.sequence = a.sequence) : Deaf a' b := by
  intro now
  have hnow := h now
  unfold rejects generateAdvertisement at hnow ⊢
  rwa [hid, hsequence]

/-- The table of a new router with the links of a first advertisement: at most one link,
of the sender. -/
theorem near_addLinks_first {a b : UInt32} (hab : a ≠ b) {r : MeshRouter Q}
    (hid : r.localId = a) (c : NeighborCall Q) (hlinks : r.directNeighbors = c.effect ∅)
    (now : ℕ) : (addLinks (new b : MeshRouter Q).table (r.generateAdvertisement now)).Near := by
  unfold addLinks generateAdvertisement
  rw [hid, hlinks]
  cases c with
  | updateNeighbor id q => exact RouteTable.near_single hab id q
  | removeNeighbor id =>
    intro p hp
    change p ∈ (RouteTable.new b).linksOf b at hp
    rw [RouteTable.linksOf_new] at hp
    cases hp

theorem link_addLinks_first {a b : UInt32} {r : MeshRouter Q} (hid : r.localId = a)
    (c : NeighborCall Q) (hlinks : r.directNeighbors = c.effect ∅) (now : ℕ) {n : UInt32} {q : Q}
    (hn : r.directNeighbors[n]? = some q) :
    (addLinks (new b : MeshRouter Q).table (r.generateAdvertisement now)).link a n = some q := by
  unfold addLinks generateAdvertisement
  rw [hlinks] at hn ⊢
  rw [hid]
  cases c with
  | updateNeighbor id q' =>
    change ((∅ : Std.ExtTreeMap UInt32 Q).insert id q')[n]? = some q at hn
    rw [getElem?_insert_ite] at hn
    change ((RouteTable.new b).updateLink a id q').link a n = some q
    rw [RouteTable.link_updateLink]
    split at hn
    · next hni => rwa [if_pos hni]
    · simp at hn
  | removeNeighbor id => simp [NeighborCall.effect] at hn

section Calls
variable [Preorder Q] [WellFoundedGT Q] [DecidableLT Q] [One Q] [Mul Q] [Zero Q]

/-- A call returns, and does to the links what it says. -/
theorem Own.exists_returns_change {r : MeshRouter Q} (h : r.Own) (c : NeighborCall Q) :
    ∃ r', Returns (fun limit => r.change limit c) r' ∧ r'.Own ∧ r'.localId = r.localId ∧
      r'.sequence = r.sequence ∧ r'.directNeighbors = c.effect r.directNeighbors := by
  cases c with
  | updateNeighbor id q =>
    have hstar : (r.table.updateLink r.localId id q).Star := by
      rw [← h.localId]
      exact h.star.updateLink id q
    obtain ⟨t, hreturns, hlocal, hadj⟩ := RouteTable.exists_returns_recompute hstar.near
    exact ⟨_, hreturns.bind (.pure _), ⟨hlocal.trans h.localId, star_congr hlocal hadj hstar⟩,
      rfl, rfl, rfl⟩
  | removeNeighbor id =>
    have hstar := h.star.removeNode id
    obtain ⟨t, hreturns, hlocal, hadj⟩ := RouteTable.exists_returns_recompute hstar.near
    exact ⟨_, hreturns.bind (.pure _), ⟨hlocal.trans h.localId, star_congr hlocal hadj hstar⟩,
      rfl, rfl, rfl⟩

/-- A deaf receiver keeps up exactly while the calls leave the links alone. -/
theorem exists_returns_exchanges_deaf {a b : MeshRouter Q} (ha : a.Own) (hdeaf : Deaf a b)
    (calls : List (ℕ × NeighborCall Q)) :
    ∃ es, Returns (fun limit => exchanges limit a b calls) es ∧
      (b.Holds a → ((∀ e ∈ es, e.Kept) ↔
        ∀ c ∈ calls.map Prod.snd, c.effect a.directNeighbors = a.directNeighbors)) := by
  induction calls generalizing a with
  | nil => exact ⟨[], .pure [], fun _ => by simp⟩
  | cons call calls ih =>
    obtain ⟨now, c⟩ := call
    obtain ⟨a', hchange, ha', hid, hsequence, hlinks⟩ := ha.exists_returns_change c
    have hdeaf' : Deaf a' b := hdeaf.congr hid hsequence
    obtain ⟨es, hrest, hiff⟩ := ih ha' hdeaf'
    have hprocess : Returns
        (fun limit => b.processAdvertisement limit (a'.generateAdvertisement now)) (b, false) := by
      unfold processAdvertisement
      simp only [hdeaf' now, if_true]
      exact .pure _
    have hexchange : Returns (fun limit => exchange limit a b now c) ⟨a, a', b, false⟩ :=
      hchange.bind (hprocess.bind (.pure _))
    refine ⟨_, hexchange.bind (hrest.bind (.pure _)), fun hholds => ?_⟩
    by_cases hsame : c.effect a.directNeighbors = a.directNeighbors
    · have hlinks' : a'.directNeighbors = a.directNeighbors := hlinks.trans hsame
      have hholds' : b.Holds a' := by
        intro n q hn
        rw [hlinks'] at hn
        rw [hid]
        exact hholds n q hn
      have hkept : Exchange.Kept ⟨a, a', b, false⟩ := ⟨fun hne => absurd hlinks' hne, hholds'⟩
      rw [List.forall_mem_cons, List.map_cons, List.forall_mem_cons, hiff hholds', hlinks']
      exact ⟨fun h => ⟨hsame, h.2⟩, fun h => ⟨hkept, h.2⟩⟩
    · constructor
      · intro hkept
        have hfirst := (hkept _ List.mem_cons_self).1
        exact absurd (hfirst fun heq => hsame (hlinks.symm.trans heq)) Bool.false_ne_true
      · intro hall
        exact absurd (hall c List.mem_cons_self) hsame

/-- The first advertisement of a new router to another is accepted, and is the last. -/
theorem exists_returns_first {a b : UInt32} (hab : a ≠ b) (now : ℕ) (c : NeighborCall Q) :
    ∃ e, Returns (fun limit => exchange limit (new a) (new b) now c) e ∧ e.accepted = true ∧
      e.sender.Own ∧ Deaf e.sender e.receiver ∧ e.receiver.Holds e.sender ∧
      e.sender.directNeighbors = c.effect ∅ := by
  obtain ⟨a', hchange, ha', hid, hsequence, hlinks⟩ := (own_new a).exists_returns_change c
  change a'.localId = a at hid
  change a'.sequence = 0 at hsequence
  change a'.directNeighbors = c.effect ∅ at hlinks
  have hfresh : (new b : MeshRouter Q).rejects (a'.generateAdvertisement now) = false := by
    simp [rejects, generateAdvertisement, new, hid, hab]
  obtain ⟨t, hreturns, hlocal, hadj⟩ :=
    RouteTable.exists_returns_recompute (near_addLinks_first hab hid c hlinks now)
  have hprocess : Returns (fun limit =>
      (new b : MeshRouter Q).processAdvertisement limit (a'.generateAdvertisement now))
      ({ (new b : MeshRouter Q) with
          table := t
          lastSequence := (new b : MeshRouter Q).lastSequence.insert a'.localId 0 }, true) := by
    unfold processAdvertisement
    simp only [hfresh, Bool.false_eq_true, if_false]
    rw [← hsequence]
    exact hreturns.bind (.pure _)
  refine ⟨_, hchange.bind (hprocess.bind (.pure _)), rfl, ha', ?_, ?_, hlinks⟩
  · intro now'
    simp [rejects, generateAdvertisement, hsequence]
  · intro n q hn
    change t.link a'.localId n = some q
    unfold RouteTable.link RouteTable.linksOf
    rw [hid, hadj]
    exact link_addLinks_first hid c hlinks now hn

/-- From the second call on the links must stay as the first call made them. -/
theorem exists_returns_exchanges {a b : UInt32} (hab : a ≠ b) (now : ℕ)
    (first : NeighborCall Q) (calls : List (ℕ × NeighborCall Q)) :
    ∃ es, Returns (fun limit => exchanges limit (new a) (new b) ((now, first) :: calls)) es ∧
      ((∀ e ∈ es, e.Kept) ↔ ∀ c ∈ calls.map Prod.snd,
        c.effect (first.effect ∅) = first.effect ∅) := by
  obtain ⟨e, hexchange, haccepted, hown, hdeaf, hholds, hlinks⟩ :=
    exists_returns_first hab now first
  obtain ⟨es, hrest, hiff⟩ := exists_returns_exchanges_deaf hown hdeaf calls
  have hkept : e.Kept := ⟨fun _ => haccepted, hholds⟩
  refine ⟨e :: es, hexchange.bind (hrest.bind (.pure _)), ?_⟩
  rw [List.forall_mem_cons, hiff hholds, hlinks]
  exact ⟨fun h => h.2, fun h => ⟨hkept, h⟩⟩

/-- No change is lost exactly when the calls after the first repeat it. -/
theorem kept_iff_settled (a b : UInt32) (calls : List (ℕ × NeighborCall Q)) :
    ∃ es, Returns (fun limit => exchanges limit (new a) (new b) calls) es ∧
      ((∀ e ∈ es, e.Kept) ↔ Settled a b (calls.map Prod.snd)) := by
  by_cases hab : a = b
  · subst hab
    have hdeaf : Deaf (new a : MeshRouter Q) (new a) := by
      intro now
      simp [rejects, generateAdvertisement]
    obtain ⟨es, hreturns, hiff⟩ := exists_returns_exchanges_deaf (own_new a) hdeaf calls
    refine ⟨es, hreturns, (hiff ?_).trans ?_⟩
    · intro n q hn
      simp [new] at hn
    · have hempty : (new a : MeshRouter Q).directNeighbors = ∅ := rfl
      rw [hempty]
      simp only [NeighborCall.effect_empty_iff]
      cases calls with
      | nil => simp [Settled]
      | cons call calls => simp [Settled]
  · cases calls with
    | nil => exact ⟨[], .pure [], by simp [Settled]⟩
    | cons call calls =>
      obtain ⟨es, hreturns, hiff⟩ := exists_returns_exchanges hab call.1 call.2 calls
      refine ⟨es, hreturns, hiff.trans ?_⟩
      simp only [NeighborCall.effect_eq_iff_repeats, List.map_cons, Settled, if_neg hab]

end Calls

/-- A quality in percent; products are rounded down. -/
def Percent : Type := Fin 101

namespace Percent

instance : LinearOrder Percent := inferInstanceAs (LinearOrder (Fin 101))
instance : WellFoundedGT Percent := inferInstanceAs (WellFoundedGT (Fin 101))
instance : Zero Percent := ⟨(0 : Fin 101)⟩
instance : One Percent := ⟨(100 : Fin 101)⟩
instance : Mul Percent := ⟨fun a b => Fin.ofNat 101 (Fin.val a * Fin.val b / 100)⟩

/-- Percent of a number below 101. -/
def of (n : ℕ) : Percent := Fin.ofNat 101 n

end Percent

theorem kept_iff_settled_percent :
    ∃ es, Returns (fun limit => exchanges limit (new 1) (new 2)
        [(0, .updateNeighbor 3 (Percent.of 90)), (7, .updateNeighbor 3 (Percent.of 40))]) es ∧
      ((∀ e ∈ es, e.Kept) ↔ Settled 1 2
        [.updateNeighbor 3 (Percent.of 90), .updateNeighbor 3 (Percent.of 40)]) :=
  kept_iff_settled 1 2
    [(0, .updateNeighbor 3 (Percent.of 90)), (7, .updateNeighbor 3 (Percent.of 40))]

/-- When the quality of node 1's link to node 3 falls from 90 to 40 percent, node 2 does
not learn it. -/
theorem not_noChangeLost : ¬ NoChangeLost Percent := by
  intro h
  obtain ⟨es, hreturns, hkept⟩ := h 1 2
    [(0, .updateNeighbor 3 (Percent.of 90)), (7, .updateNeighbor 3 (Percent.of 40))] (by decide)
  obtain ⟨es', hreturns', hiff⟩ := exists_returns_exchanges (Q := Percent) (a := 1) (b := 2)
    (by decide) 0 (.updateNeighbor 3 (Percent.of 90)) [(7, .updateNeighbor 3 (Percent.of 40))]
  rw [hreturns.unique hreturns'] at hkept
  have hsame := hiff.mp hkept _ List.mem_cons_self
  obtain ⟨-, hquality⟩ := (NeighborCall.effect_eq_iff_repeats _ _).mp hsame
  revert hquality
  decide

end MeshRouter
end Cirradio.Network
