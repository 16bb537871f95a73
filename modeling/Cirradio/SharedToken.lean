import Cirradio.HandleInvariants
import Cirradio.SoftHsm

/-!
# Nodes on one token

The nodes of a process have sessions of their own on one token, with one login. What a node does
with its keys leaves those of the others alone, but its shutdown ends the login of all, and their
private keys with it.
-/

namespace Cirradio.Security
open Pkcs11 KeyManager

universe u

/-- The token, and the key manager of each node with its session. -/
structure TokenNodes (τ : Type u) (ι : Type) where
  token : τ
  managers : ι → KeyManager (HsmSession SoftMembers)

inductive NodeEvent where
  | construct (ivs : ℕ → Option (RandBytes 12))
  | call (c : MemberCall)
  /-- `SoftHsm::shutdown`, from a zeroization or the destructor. -/
  | shutdown

namespace TokenNodes
variable {τ : Type u} {ι : Type} [DecidableEq ι] (C : Cryptoki τ) (ssl : Evp)

def hsm (w : TokenNodes τ ι) (i : ι) : SoftHsm τ := ⟨(w.managers i).hsm, w.token⟩

/-- The key manager of a node with all of its engine. -/
def node (w : TokenNodes τ ι) (i : ι) : KeyManager (SoftHsm τ) :=
  ⟨w.hsm i, (w.managers i).kek, (w.managers i).tek, (w.managers i).fhek,
    (w.managers i).keyEpoch⟩

/-- The nodes after a node has run. -/
def put (w : TokenNodes τ ι) (i : ι) (m : KeyManager (SoftHsm τ)) : TokenNodes τ ι :=
  ⟨m.hsm.token, Function.update w.managers i
    ⟨m.hsm.toHsmSession, m.kek, m.tek, m.fhek, m.keyEpoch⟩⟩

/-- An instance is constructed where there is none, or one that has been shut down. -/
def step (w : TokenNodes τ ι) (i : ι) : NodeEvent → TokenNodes τ ι
  | .construct ivs =>
    if (w.managers i).hsm.session ≠ 0 then w
    else
      match SoftHsm.new C ivs w.token with
      | (token, .error _) => { w with token }
      | (token, .ok session) =>
        ⟨token, Function.update w.managers i (KeyManager.new session)⟩
  | .call c => w.put i (call (SoftHsm.engine C ssl) (w.node i) c).1
  | .shutdown => w.put i { w.node i with hsm := (w.hsm i).shutdown C }

def run (w : TokenNodes τ ι) (events : List (ι × NodeEvent)) : TokenNodes τ ι :=
  events.foldl (fun w e => w.step C ssl e.1 e.2) w

variable {C} (T : Token C)

/-- The keys of a node. -/
def material (w : TokenNodes τ ι) (i : ι) : KeyMaterial :=
  ⟨fun slot => ((w.managers i).handle slot).bind (SoftHsm.keyValue T (w.hsm i)),
    (w.managers i).keyEpoch⟩

/-- The nodes before the first is constructed, on a token without keys and sessions. -/
structure Fresh (w : TokenNodes τ ι) : Prop where
  key (h : ObjectHandle) : (T.view w.token).key h = none
  isOpen (s : SessionHandle) : (T.view w.token).isOpen s = false
  active (s : SessionHandle) : (T.view w.token).active s = none
  absent (i : ι) : (w.managers i).hsm.session = 0 ∧
    (w.managers i).hsm.members.softFinalized = true ∧
    ∀ slot, (w.managers i).handle slot = none

/-- The keys are gone, and the epoch stays. -/
def lost (m : KeyMaterial) : KeyMaterial := { m with key := fun _ => none }

/-- What a node leaves as it is while it makes its calls. -/
structure Beside (others : Set CkHandle) (s₀ s : SoftHsm τ) : Prop where
  continues : Pkcs11Hsm.Continues s₀ s
  sound : (s.view T).Sound T.isPrivate
  isOpen : (s.view T).isOpen = (s₀.view T).isOpen
  active : (s.view T).active = (s₀.view T).active
  loggedIn : (s.view T).loggedIn = (s₀.view T).loggedIn
  used : (s₀.view T).used ⊆ (s.view T).used
  key {h : CkHandle} : h ∈ others → (s.view T).key h = (s₀.view T).key h

/-- A handle that a node has to itself. -/
structure Own (others : Set CkHandle) (s : SoftHsm τ) (h : CkHandle) : Prop where
  notOther : h ∉ others
  used : h ∈ (s.view T).used
  session {k : Key} : (s.view T).key h = some k → k.session = s.session

section Calls
variable {T} {others : Set CkHandle} {s₀ s s' : SoftHsm τ}

theorem Beside.admits_of_view (hs : Beside T others s₀ s) (hcontinues : Pkcs11Hsm.Continues s s')
    (hview : s'.view T = s.view T) :
    Admits (Beside T others s₀) (Own T others) s s' none := by
  refine ⟨⟨?_, ?_, ?_, ?_, ?_, ?_, fun hh => ?_⟩, fun hown => ⟨hown.notOther, ?_, fun hk => ?_⟩,
    fun he => by cases he⟩
  · exact ⟨hcontinues.session.trans hs.continues.session,
      hcontinues.members.trans hs.continues.members⟩
  · exact hview ▸ hs.sound
  · exact hview ▸ hs.isOpen
  · exact hview ▸ hs.active
  · exact hview ▸ hs.loggedIn
  · exact hview ▸ hs.used
  · exact hview ▸ hs.key hh
  · exact hview ▸ hown.used
  · rw [hview] at hk
    exact (hown.session hk).trans hcontinues.session.symm

theorem Beside.admits_created (hs : Beside T others s₀ s)
    (hothers : others ⊆ (s₀.view T).used) {template : Template} {values : Bytes → Prop}
    {handle : Option CkHandle} (hc : Pkcs11Hsm.Created T s s' template values handle) :
    Admits (Beside T others s₀) (Own T others) s s' handle := by
  obtain ⟨hcontinues, ⟨rfl, hview⟩ | ⟨h, value, rfl, hne, hfresh, -, husable, hview⟩⟩ := hc
  · exact hs.admits_of_view hcontinues hview
  · have hcreates : (s.view T).Creates T.isPrivate s.session template (fun _ => True)
        (s'.view T) ckrOk h := .inr ⟨rfl, husable, hne, hfresh, value, trivial, hview⟩
    have hkey : ∀ h' ∈ (s.view T).used, (s'.view T).key h' = (s.view T).key h' := by
      intro h' hused
      have hne' : h' ≠ h := fun he => hfresh (he ▸ hused)
      rw [hview, View.create_key, Function.update_of_ne hne']
    have hused : insert h (s.view T).used = (s'.view T).used := by
      rw [hview, View.create_used]
    refine ⟨⟨?_, hs.sound.creates hcreates, ?_, ?_, ?_, ?_, fun hh => ?_⟩,
      fun {h'} hown => ⟨hown.notOther, ?_, fun hk => ?_⟩, ?_⟩
    · exact ⟨hcontinues.session.trans hs.continues.session,
        hcontinues.members.trans hs.continues.members⟩
    · rw [hview]
      exact hs.isOpen
    · rw [hview]
      exact hs.active
    · rw [hview]
      exact hs.loggedIn
    · rw [← hused]
      exact hs.used.trans (Set.subset_insert _ _)
    · exact (hkey _ (hs.used (hothers hh))).trans (hs.key hh)
    · rw [← hused]
      exact Set.mem_insert_of_mem _ hown.used
    · rw [hkey h' hown.used] at hk
      exact (hown.session hk).trans hcontinues.session.symm
    · rintro h' ⟨⟩
      refine ⟨fun hh => hfresh (hs.used (hothers hh)), ?_, fun hk => ?_⟩
      · rw [← hused]
        exact Set.mem_insert _ _
      · rw [hview, View.create_key, Function.update_self] at hk
        cases hk
        exact hcontinues.session.symm

theorem Beside.admits_destroyed (hs : Beside T others s₀ s) {h : CkHandle}
    (hh : Own T others s h) (hcontinues : Pkcs11Hsm.Continues s s')
    (hview : s'.view T = (s.view T).destroy h) :
    Admits (Beside T others s₀) (Own T others) s s' none := by
  refine ⟨⟨?_, ?_, ?_, ?_, ?_, ?_, fun {h'} hh' => ?_⟩,
    fun {h'} hown => ⟨hown.notOther, ?_, fun hk => ?_⟩, fun he => by cases he⟩
  · exact ⟨hcontinues.session.trans hs.continues.session,
      hcontinues.members.trans hs.continues.members⟩
  · rw [hview]
    exact hs.sound.destroy
  · rw [hview]
    exact hs.isOpen
  · rw [hview]
    exact hs.active
  · rw [hview]
    exact hs.loggedIn
  · rw [hview]
    exact hs.used
  · have hne : h' ≠ h := fun he => hh.notOther (he ▸ hh')
    rw [hview, View.destroy_key, Function.update_of_ne hne]
    exact hs.key hh'
  · rw [hview]
    exact hown.used
  · rw [hcontinues.session]
    by_cases he : h' = h
    · subst he
      rw [hview, View.destroy_key, Function.update_self] at hk
      cases hk
    · rw [hview, View.destroy_key, Function.update_of_ne he] at hk
      exact hown.session hk

/-- The calls of a node leave alone the keys of the others, and the session and its login. -/
theorem handleInvariant (hothers : others ⊆ (s₀.view T).used)
    (hidle : (s₀.view T).active s₀.session = none) :
    HandleInvariant (SoftHsm.engine C ssl) (Beside T others s₀) (Own T others) where
  generateKey {s} hs type label :=
    hs.admits_created hothers (SoftHsm.generateKey_created T s type label)
  unwrapKey {s} hs kek wrapped :=
    hs.admits_created hothers (SoftHsm.unwrapKey_created T s kek wrapped)
  importRaw {s} hs bytes label :=
    hs.admits_created hothers (SoftHsm.importRaw_created T s bytes label)
  encrypt {s} hs h plaintext := by
    obtain ⟨hcontinues, hview | ⟨op, hview⟩, -⟩ := Pkcs11Hsm.encrypt_encrypts T s h plaintext
    · exact hs.admits_of_view hcontinues hview
    · have hidle : (s.view T).active s.session = none := by
        rw [hs.active, hs.continues.session, hidle]
      exact hs.admits_of_view hcontinues (hview.trans (View.setActive_setActive_none hidle))
  decrypt {s} hs h ciphertext := by
    obtain ⟨plaintext, hcall⟩ := Pkcs11Hsm.decrypt_pure T s h ciphertext
    have hsame : ((SoftHsm.engine C ssl).decrypt s h ciphertext).1 = s := congrArg Prod.fst hcall
    rw [hsame]
    exact hs.admits_of_view ⟨rfl, rfl⟩ rfl
  wrapKey {s} hs kek h :=
    hs.admits_of_view (Pkcs11Hsm.wrapKey_view T s kek h).1 (Pkcs11Hsm.wrapKey_view T s kek h).2
  exportRaw {s} hs h :=
    hs.admits_of_view (SoftHsm.exportRaw_view T s h).1 (SoftHsm.exportRaw_view T s h).2
  destroyKey {s} hs {h} hh := by
    obtain ⟨hcontinues, ⟨-, hview⟩ | ⟨-, hview⟩⟩ := Pkcs11Hsm.destroyObject_view T s h
    · exact hs.admits_of_view hcontinues hview
    · exact hs.admits_destroyed hh hcontinues hview

end Calls

/-- What holds between two events. -/
structure Apart (w : TokenNodes τ ι) : Prop where
  sound : (T.view w.token).Sound T.isPrivate
  idle (i : ι) : (T.view w.token).active (w.managers i).hsm.session = none
  used {i : ι} {slot : KeySlot} {h : CkHandle} :
    (w.managers i).handle slot = some h → h ∈ (T.view w.token).used
  unshared {i j : ι} {slot slot' : KeySlot} {h : CkHandle} :
    i ≠ j → (w.managers i).handle slot = some h → (w.managers j).handle slot' ≠ some h
  own {i : ι} {slot : KeySlot} {h : CkHandle} {k : Key} : (w.managers i).handle slot = some h →
    (T.view w.token).key h = some k → k.session = (w.managers i).hsm.session
  isOpen {i : ι} : (w.managers i).hsm.session ≠ 0 →
    (T.view w.token).isOpen (w.managers i).hsm.session = true
  distinct {i j : ι} : i ≠ j → (w.managers i).hsm.session ≠ 0 →
    (w.managers i).hsm.session ≠ (w.managers j).hsm.session
  finalized (i : ι) :
    (w.managers i).hsm.members.softFinalized = true ↔ (w.managers i).hsm.session = 0

/-- The handles of all nodes but one. -/
def others (w : TokenNodes τ ι) (i : ι) : Set CkHandle :=
  {h | ∃ j ≠ i, ∃ slot, (w.managers j).handle slot = some h}

section Nodes
variable {T} {w w' : TokenNodes τ ι} {i j : ι}

omit [DecidableEq ι] in
theorem Fresh.apart (hw : Fresh T w) : Apart T w := by
  have hnone : ∀ {i slot h}, (w.managers i).handle slot ≠ some h := by
    intro i slot h hs
    rw [(hw.absent i).2.2 slot] at hs
    cases hs
  have hkey : ∀ {h k}, (T.view w.token).key h ≠ some k := by
    intro h k hk
    rw [hw.key h] at hk
    cases hk
  have hzero : ∀ i, (w.managers i).hsm.session = 0 := fun i => (hw.absent i).1
  exact {
    sound := ⟨fun hk => absurd hk hkey, fun hk => absurd hk hkey, fun _ hk => absurd hk hkey,
      fun _ => hw.active _, hw.isOpen 0⟩
    idle := fun i => hw.active _
    used := fun hs => absurd hs hnone
    unshared := fun _ hs => absurd hs hnone
    own := fun hs => absurd hs hnone
    isOpen := fun hs => absurd (hzero _) hs
    distinct := fun _ hs => absurd (hzero _) hs
    finalized := fun i => ⟨fun _ => hzero i, fun _ => (hw.absent i).2.1⟩ }

omit [DecidableEq ι] in
/-- It is enough to look at the node that has run, and at what it leaves of the token. -/
theorem Apart.of_node (hw : Apart T w) (hmanagers : ∀ j ≠ i, w'.managers j = w.managers j)
    (hsound : (T.view w'.token).Sound T.isPrivate)
    (hactive : ∀ {s}, (T.view w.token).active s = none → (T.view w'.token).active s = none)
    (hidle : (T.view w'.token).active (w'.managers i).hsm.session = none)
    (hused : (T.view w.token).used ⊆ (T.view w'.token).used)
    (hkey : ∀ {h k}, h ∈ w.others i → (T.view w'.token).key h = some k →
      (T.view w.token).key h = some k)
    (hopen : ∀ {j}, j ≠ i → (w.managers j).hsm.session ≠ 0 →
      (T.view w'.token).isOpen (w.managers j).hsm.session = true)
    (hself : (w'.managers i).hsm.session ≠ 0 →
      (T.view w'.token).isOpen (w'.managers i).hsm.session = true ∧
        ∀ j ≠ i, (w.managers j).hsm.session ≠ (w'.managers i).hsm.session)
    (hheld : ∀ {slot h}, (w'.managers i).handle slot = some h →
      Own T (w.others i) (w'.hsm i) h)
    (hfinalized : (w'.managers i).hsm.members.softFinalized = true ↔
      (w'.managers i).hsm.session = 0) : Apart T w' := by
  have hother : ∀ {j slot h}, j ≠ i → (w.managers j).handle slot = some h → h ∈ w.others i :=
    fun hj hs => ⟨_, hj, _, hs⟩
  refine ⟨hsound, fun j => ?_, fun {j slot h} hs => ?_, fun {j j' slot slot' h} hne hs hs' => ?_,
    fun {j slot h k} hs hk => ?_, fun {j} hj => ?_, fun {j j'} hne hj => ?_, fun j => ?_⟩
  all_goals by_cases hji : j = i
  · exact hji ▸ hidle
  · rw [hmanagers j hji]
    exact hactive (hw.idle j)
  · exact (hheld (hji ▸ hs)).used
  · rw [hmanagers j hji] at hs
    exact hused (hw.used hs)
  · subst hji
    rw [hmanagers j' hne.symm] at hs'
    exact (hheld hs).notOther (hother hne.symm hs')
  · rw [hmanagers j hji] at hs
    by_cases hji' : j' = i
    · exact (hheld (hji' ▸ hs')).notOther (hother hji hs)
    · rw [hmanagers j' hji'] at hs'
      exact hw.unshared hne hs hs'
  · subst hji
    exact (hheld hs).session hk
  · rw [hmanagers j hji] at hs ⊢
    exact hw.own hs (hkey (hother hji hs) hk)
  · subst hji
    exact (hself hj).1
  · rw [hmanagers j hji] at hj ⊢
    exact hopen hji hj
  · subst hji
    rw [hmanagers j' hne.symm]
    exact ((hself hj).2 j' hne.symm).symm
  · rw [hmanagers j hji] at hj ⊢
    by_cases hji' : j' = i
    · subst hji'
      by_cases hzero : (w'.managers j').hsm.session = 0
      · rw [hzero]
        exact hj
      · exact (hself hzero).2 j hji
    · rw [hmanagers j' hji']
      exact hw.distinct hne hj
  · subst hji
    exact hfinalized
  · rw [hmanagers j hji]
    exact hw.finalized j

omit [DecidableEq ι] in
theorem material_congr (hmanager : w'.managers j = w.managers j)
    (hkeys : ∀ {slot h}, (w.managers j).handle slot = some h →
      SoftHsm.keyValue T ⟨(w.managers j).hsm, w'.token⟩ h = SoftHsm.keyValue T (w.hsm j) h) :
    material T w' j = material T w j := by
  have hkey : ∀ slot, ((w'.managers j).handle slot).bind (SoftHsm.keyValue T (w'.hsm j)) =
      ((w.managers j).handle slot).bind (SoftHsm.keyValue T (w.hsm j)) := by
    intro slot
    rw [hsm, hmanager]
    cases hs : (w.managers j).handle slot with
    | none => rfl
    | some h => exact hkeys hs
  unfold material
  rw [hmanager] at hkey ⊢
  exact congrArg (KeyMaterial.mk · _) (funext hkey)

omit [DecidableEq ι] in
@[simp] theorem handle_node (w : TokenNodes τ ι) (i : ι) :
    (w.node i).handle = (w.managers i).handle := by
  funext slot
  cases slot <;> rfl

theorem put_managers_of_ne (w : TokenNodes τ ι) (m : KeyManager (SoftHsm τ)) (hj : j ≠ i) :
    (w.put i m).managers j = w.managers j := Function.update_of_ne hj _ _

theorem put_managers_self (w : TokenNodes τ ι) (i : ι) (m : KeyManager (SoftHsm τ)) :
    (w.put i m).managers i = ⟨m.hsm.toHsmSession, m.kek, m.tek, m.fhek, m.keyEpoch⟩ :=
  Function.update_self _ _ _

@[simp] theorem put_handle_self (w : TokenNodes τ ι) (i : ι) (m : KeyManager (SoftHsm τ)) :
    ((w.put i m).managers i).handle = m.handle := by
  rw [put_managers_self]
  funext slot
  cases slot <;> rfl

@[simp] theorem put_hsm_self (w : TokenNodes τ ι) (i : ι) (m : KeyManager (SoftHsm τ)) :
    (w.put i m).hsm i = m.hsm := by
  unfold hsm
  rw [put_managers_self]
  rfl

theorem put_node (w : TokenNodes τ ι) (i : ι) : w.put i (w.node i) = w :=
  congrArg (TokenNodes.mk w.token) (Function.update_eq_self i w.managers)

theorem step_call (w : TokenNodes τ ι) (i : ι) (c : MemberCall) : w.step C ssl i (.call c) =
    w.put i (KeyManager.call (SoftHsm.engine C ssl) (w.node i) c).1 := rfl

/-- A call of one node keeps the keys of all others. -/
theorem Apart.call (hw : Apart T w) (i : ι) (c : MemberCall) :
    Apart T (w.step C ssl i (.call c)) ∧
      ∀ j ≠ i, material T (w.step C ssl i (.call c)) j = material T w j := by
  have hothers : w.others i ⊆ ((w.hsm i).view T).used := by
    rintro h ⟨j, -, slot, hs⟩
    exact hw.used hs
  have hstart : Holds (Beside T (w.others i) (w.hsm i)) (Own T (w.others i)) (w.node i) := by
    refine ⟨⟨⟨rfl, rfl⟩, hw.sound, rfl, rfl, rfl, subset_rfl, fun _ => rfl⟩, fun {slot h} hs => ?_⟩
    rw [handle_node] at hs
    refine ⟨?_, hw.used hs, hw.own hs⟩
    rintro ⟨j, hj, slot', hs'⟩
    exact hw.unshared hj hs' hs
  have hend := hstart.call (handleInvariant ssl hothers (hw.idle i)) c
  rw [step_call]
  generalize (KeyManager.call (SoftHsm.engine C ssl) (w.node i) c).1 = m at hend ⊢
  obtain ⟨⟨⟨hsession, hfinalized⟩, hsound, hopen, hactive, hlogin, hused, hkey⟩, hheld⟩ := hend
  have hactive : (T.view m.hsm.token).active = (T.view w.token).active := hactive
  have hopen : (T.view m.hsm.token).isOpen = (T.view w.token).isOpen := hopen
  have hself : ((w.put i m).managers i).hsm = m.hsm.toHsmSession := by
    rw [put_managers_self]
  refine ⟨hw.of_node (fun j hj => put_managers_of_ne w m hj) hsound ?_ ?_ hused ?_ ?_ ?_ ?_ ?_,
    fun j hj => ?_⟩
  · intro s hs
    exact (congrFun hactive s).trans hs
  · rw [hself]
    exact (congrFun hactive _).trans (hsession ▸ hw.idle i)
  · intro h k hh hk
    exact (hkey hh).symm.trans hk
  · intro j hj hne
    exact (congrFun hopen _).trans (hw.isOpen hne)
  · rw [hself, hsession]
    intro hne
    refine ⟨(congrFun hopen _).trans (hw.isOpen hne), fun j hj => (hw.distinct hj.symm hne).symm⟩
  · intro slot h hs
    rw [put_handle_self] at hs
    rw [put_hsm_self]
    exact hheld hs
  · rw [hself, hsession, hfinalized]
    exact hw.finalized i
  · refine material_congr (put_managers_of_ne w m hj) fun {slot h} hs => ?_
    refine SoftHsm.keyValue_congr (hkey ⟨j, hj, slot, hs⟩) ?_
    have hlogin : (T.view m.hsm.token).loggedIn = (T.view w.token).loggedIn := hlogin
    simp only [Pkcs11Hsm.view, hsm, View.Usable, put, hopen, hlogin]

omit [DecidableEq ι] in
theorem Apart.ne_of_closed (hw : Apart T w) {s : SessionHandle} (hs : s ≠ 0)
    (hclosed : (T.view w.token).isOpen s = false) (j : ι) : (w.managers j).hsm.session ≠ s := by
  intro he
  by_cases hj : (w.managers j).hsm.session = 0
  · exact hs (he.symm.trans hj)
  · have hopen := hw.isOpen hj
    rw [he, hclosed] at hopen
    cases hopen

omit [DecidableEq ι] in
/-- A key that can be used is as it was if there is one more session, and a login. -/
theorem Apart.keyValue_opened (hw : Apart T w) {t : τ} {s : SessionHandle} {loggedIn : Bool}
    (hview : T.view t = { (T.view w.token).opened s with loggedIn })
    (hlogin : loggedIn = true ∨ loggedIn = (T.view w.token).loggedIn) (h : CkHandle)
    (hs : (w.managers j).hsm.session ≠ s) :
    SoftHsm.keyValue T ⟨(w.managers j).hsm, t⟩ h = SoftHsm.keyValue T (w.hsm j) h := by
  have hkey : (Pkcs11Hsm.view T ⟨(w.managers j).hsm, t⟩).key h = ((w.hsm j).view T).key h := by
    rw [Pkcs11Hsm.view, hview]
    rfl
  cases hk : ((w.hsm j).view T).key h with
  | none => rw [SoftHsm.keyValue_eq_none hk, SoftHsm.keyValue_eq_none (hkey.trans hk)]
  | some k =>
    apply SoftHsm.keyValue_congr hkey
    rw [Pkcs11Hsm.view, hview]
    refine and_congr (by rw [View.opened_isOpen, Function.update_of_ne hs]; rfl) ?_
    refine forall_congr' fun hprivate => ?_
    have hin : (T.view w.token).loggedIn = true := hw.sound.authorized hprivate hk
    rcases hlogin with rfl | rfl
    · exact iff_of_true rfl hin
    · rfl

omit [DecidableEq ι] in
/-- More sessions and a login keep the nodes apart, as long as no node has a new key. -/
theorem Apart.of_opened (hw : Apart T w) {s : SessionHandle} {loggedIn : Bool} (hs : s ≠ 0)
    (hview : T.view w'.token = { (T.view w.token).opened s with loggedIn })
    (hlogin : loggedIn = true ∨ loggedIn = (T.view w.token).loggedIn)
    (hclosed : (T.view w.token).isOpen s = false)
    (hmanagers : ∀ j ≠ i, w'.managers j = w.managers j)
    (hsession : (w'.managers i).hsm.session = 0 ∨ (w'.managers i).hsm.session = s)
    (hfinalized : (w'.managers i).hsm.members.softFinalized = true ↔
      (w'.managers i).hsm.session = 0)
    (hheld : ∀ {slot h}, (w'.managers i).handle slot = some h →
      Own T (w.others i) (w'.hsm i) h) :
    Apart T w' ∧ ∀ j ≠ i, material T w' j = material T w j := by
  have hsound : (T.view w'.token).Sound T.isPrivate := by
    rw [hview]
    rcases hlogin with rfl | rfl
    · exact (hw.sound.opened hs).login
    · exact hw.sound.opened hs
  have hidle : ∀ s, (T.view w.token).active s = none → (T.view w'.token).active s = none := by
    intro s hs
    rw [hview]
    exact hs
  refine ⟨hw.of_node hmanagers hsound (hidle _) ?_ ?_ ?_ ?_ ?_ hheld hfinalized, fun j hj => ?_⟩
  · rcases hsession with hzero | hnew
    · rw [hzero]
      exact hsound.idle hsound.invalid
    · rw [hnew]
      exact hidle s (hw.sound.idle hclosed)
  · rw [hview]
    exact subset_rfl
  · intro h k _ hk
    rw [hview] at hk
    exact hk
  · intro j hj hne
    rw [hview]
    exact (Function.update_of_ne (hw.ne_of_closed hs hclosed j) _ _).trans (hw.isOpen hne)
  · intro hne
    have hnew := hsession.resolve_left hne
    rw [hnew, hview]
    exact ⟨Function.update_self _ _ _, fun j _ => hw.ne_of_closed hs hclosed j⟩
  · exact material_congr (hmanagers j hj) fun _ =>
      hw.keyValue_opened hview hlogin _ (hw.ne_of_closed hs hclosed j)

omit [DecidableEq ι] in
theorem Apart.of_view (hw : Apart T w) {t : τ} (hview : T.view t = T.view w.token) :
    Apart T { w with token := t } ∧ ∀ j, material T { w with token := t } j = material T w j := by
  have hown : ∀ {i slot h k}, (w.managers i).handle slot = some h → (T.view t).key h = some k →
      k.session = (w.managers i).hsm.session := by
    intro i slot h k hs hk
    rw [hview] at hk
    exact hw.own hs hk
  refine ⟨⟨hview ▸ hw.sound, hview ▸ hw.idle, hview ▸ hw.used, hw.unshared, hown,
    hview ▸ hw.isOpen, hw.distinct, hw.finalized⟩, fun j => material_congr rfl fun _ => ?_⟩
  have hview : Pkcs11Hsm.view T ⟨(w.managers j).hsm, t⟩ = (w.hsm j).view T := hview
  exact congrFun (SoftHsm.keyValue_of_view (by rfl) hview) _

/-- A construction changes the keys of no other node. -/
theorem Apart.construct (hw : Apart T w) (i : ι) (ivs : ℕ → Option (RandBytes 12)) :
    Apart T (w.step C ssl i (.construct ivs)) ∧
      ∀ j ≠ i, material T (w.step C ssl i (.construct ivs)) j = material T w j := by
  by_cases hzero : (w.managers i).hsm.session = 0
  case neg =>
    have hsame : w.step C ssl i (.construct ivs) = w := if_pos hzero
    rw [hsame]
    exact ⟨hw, fun _ _ => rfl⟩
  have hstep : w.step C ssl i (.construct ivs) = match SoftHsm.new C ivs w.token with
      | (token, .error _) => { w with token }
      | (token, .ok session) =>
        ⟨token, Function.update w.managers i (KeyManager.new session)⟩ :=
    if_neg (not_not_intro hzero)
  rw [hstep]
  rcases hnew : SoftHsm.new C ivs w.token with ⟨t, e | session⟩
  · obtain hview | ⟨s, hs, hclosed, hview⟩ := Pkcs11Hsm.openUserSession_error (T := T) hnew
    · obtain ⟨hapart, hmaterial⟩ := hw.of_view hview
      exact ⟨hapart, fun j _ => hmaterial j⟩
    · refine hw.of_opened hs hview (.inr rfl) hclosed (fun _ _ => rfl) (.inl hzero)
        (hw.finalized i) fun {slot h} hslot => ⟨?_, ?_, fun {k} hk => ?_⟩
      · rintro ⟨j, hj, slot', hslot'⟩
        exact hw.unshared hj hslot' hslot
      · have hused : (T.view t).used = (T.view w.token).used := by
          rw [hview, View.opened_used]
        exact hused ▸ hw.used hslot
      · have hkey : (T.view t).key h = (T.view w.token).key h := by
          rw [hview, View.opened_key]
        exact hw.own hslot (hkey.symm.trans hk)
  · obtain ⟨hs, hfinalized, hclosed, hview⟩ := SoftHsm.new_ok (T := T) hnew
    have hself : Function.update w.managers i (KeyManager.new session) i =
        KeyManager.new session := Function.update_self _ _ _
    refine hw.of_opened hs hview (.inl rfl) hclosed (fun j hj => Function.update_of_ne hj _ _)
      ?_ ?_ fun {slot h} hslot => ?_
    · exact .inr (congrArg (fun m : KeyManager (HsmSession SoftMembers) => m.hsm.session) hself)
    · dsimp only
      rw [hself]
      exact iff_of_false (fun h => by cases hfinalized.symm.trans h) hs
    · dsimp only at hslot
      rw [hself] at hslot
      cases slot <;> cases hslot

/-- What the shutdown of a node leaves of the token. -/
structure ShutDown (T : Token C) (w : TokenNodes τ ι) (i : ι) (s : SoftHsm τ) : Prop where
  session : s.session = 0
  finalized : s.members.softFinalized = true
  sound : (s.view T).Sound T.isPrivate
  key {h : CkHandle} {k : Key} : (s.view T).key h = some k ↔ T.isPrivate = false ∧
    (T.view w.token).key h = some k ∧ k.session ≠ (w.managers i).hsm.session
  isOpen {j : ι} : j ≠ i → (s.view T).isOpen (w.managers j).hsm.session =
    (T.view w.token).isOpen (w.managers j).hsm.session
  idle {s' : SessionHandle} : (T.view w.token).active s' = none → (s.view T).active s' = none
  used : (s.view T).used = (T.view w.token).used

omit [DecidableEq ι] in
theorem Apart.shutDown (hw : Apart T w) (i : ι) (hi : (w.managers i).hsm.session ≠ 0) :
    ShutDown T w i ((w.hsm i).shutdown C) := by
  have hfinalized : (w.hsm i).members.softFinalized = false :=
    Bool.eq_false_iff.mpr fun hf => hi ((hw.finalized i).mp hf)
  obtain ⟨hzero, hfinalized', active, hactive, hview⟩ :=
    SoftHsm.shutdown_view (T := T) (s := w.hsm i) hw.sound hfinalized hi (hw.isOpen hi)
  generalize (w.hsm i).shutdown C = s at hzero hfinalized' hview ⊢
  have hview : s.view T = ((T.view w.token).loggedOut T.isPrivate active).closed
      (w.managers i).hsm.session false := hview
  refine ⟨hzero, hfinalized', ?_, fun {h k} => ?_, fun {j} hj => ?_, fun {s'} hidle => ?_, ?_⟩
  · rw [hview]
    exact (hw.sound.loggedOut hactive).closed fun _ _ _ => rfl
  · rw [hview, View.closed_key, Option.filter_eq_some_iff, View.loggedOut_key,
      decide_eq_true_iff]
    cases T.isPrivate with
    | true => simp
    | false => simp
  · rw [hview, View.closed_isOpen, Function.update_of_ne (hw.distinct hj.symm hi).symm,
      View.loggedOut_isOpen]
  · rw [hview, View.closed_active]
    by_cases hs' : s' = (w.managers i).hsm.session
    · rw [hs', Function.update_self]
    · rw [Function.update_of_ne hs']
      obtain hsame | hended := hactive s'
      · exact hsame.trans hidle
      · exact hended
  · rw [hview]
    rfl

section ShutDown
variable {s : SoftHsm τ}

omit [DecidableEq ι] in
/-- A handle of another node has its value as before, unless keys are private. -/
theorem ShutDown.keyValue_other (h : ShutDown T w i s) (hw : Apart T w)
    (hi : (w.managers i).hsm.session ≠ 0) {slot : KeySlot} {kh : CkHandle} (hj : j ≠ i)
    (hs : (w.managers j).handle slot = some kh) :
    SoftHsm.keyValue T ⟨(w.managers j).hsm, s.token⟩ kh =
      if T.isPrivate then none else SoftHsm.keyValue T (w.hsm j) kh := by
  have hnone : (∀ k, ¬ (s.view T).key kh = some k) →
      SoftHsm.keyValue T ⟨(w.managers j).hsm, s.token⟩ kh = none :=
    fun hnot => SoftHsm.keyValue_eq_none (Option.eq_none_iff_forall_ne_some.mpr hnot)
  cases hprivate : T.isPrivate with
  | true =>
    refine hnone fun k hk => ?_
    have hnot := (h.key.mp hk).1
    rw [hprivate] at hnot
    cases hnot
  | false =>
    cases hk : (T.view w.token).key kh with
    | none =>
      rw [hnone fun k hk' => by cases hk.symm.trans (h.key.mp hk').2.1]
      exact (SoftHsm.keyValue_eq_none (T := T) (s := w.hsm j) hk).symm
    | some k =>
      have hsession : k.session ≠ (w.managers i).hsm.session := by
        rw [hw.own hs hk]
        exact (hw.distinct hj.symm hi).symm
      refine SoftHsm.keyValue_congr ((h.key.mpr ⟨hprivate, hk, hsession⟩).trans hk.symm) ?_
      refine and_congr (iff_of_eq (congrArg (· = true) (h.isOpen hj)))
        (forall_congr' fun hp => ?_)
      rw [hprivate] at hp
      cases hp

omit [DecidableEq ι] in
theorem ShutDown.keyValue_self (h : ShutDown T w i s) (kh : CkHandle) :
    SoftHsm.keyValue T s kh = none := by
  refine if_neg fun husable => ?_
  have hclosed := husable.1
  rw [h.session, h.sound.invalid] at hclosed
  cases hclosed

omit [DecidableEq ι] in
theorem ShutDown.own (h : ShutDown T w i s) (hw : Apart T w) {slot : KeySlot} {kh : CkHandle}
    (hs : (w.managers i).handle slot = some kh) : Own T (w.others i) s kh := by
  refine ⟨?_, ?_, fun hk => ?_⟩
  · rintro ⟨j, hj, slot', hs'⟩
    exact hw.unshared hj hs' hs
  · rw [h.used]
    exact hw.used hs
  · obtain ⟨-, hk, hne⟩ := h.key.mp hk
    exact absurd (hw.own hs hk) hne

omit [DecidableEq ι] in
/-- The keys of another node are lost exactly if keys are private. -/
theorem ShutDown.material_other (h : ShutDown T w i s) (hw : Apart T w)
    (hi : (w.managers i).hsm.session ≠ 0) (hj : j ≠ i) (hmanager : w'.managers j = w.managers j)
    (htoken : w'.token = s.token) :
    material T w' j = if T.isPrivate then lost (material T w j) else material T w j := by
  cases hprivate : T.isPrivate with
  | true =>
    have hkeys : ∀ slot, ((w.managers j).handle slot).bind
        (SoftHsm.keyValue T ⟨(w.managers j).hsm, s.token⟩) = none := by
      intro slot
      cases hs : (w.managers j).handle slot with
      | none => rfl
      | some kh =>
        rw [Option.bind_some, h.keyValue_other hw hi hj hs, hprivate]
        rfl
    simp only [material, hsm, hmanager, htoken, lost, if_true]
    exact congrArg (KeyMaterial.mk · _) (funext hkeys)
  | false =>
    refine material_congr hmanager fun hs => ?_
    rw [htoken, h.keyValue_other hw hi hj hs, hprivate]
    rfl

end ShutDown

/-- A shutdown of one node takes the keys of all others exactly if keys are private. -/
theorem Apart.shutdown (hw : Apart T w) (i : ι) (hi : (w.managers i).hsm.session ≠ 0) :
    Apart T (w.step C ssl i .shutdown) ∧
      (∀ slot, (material T (w.step C ssl i .shutdown) i).key slot = none) ∧
      ∀ j ≠ i, material T (w.step C ssl i .shutdown) j =
        if T.isPrivate then lost (material T w j) else material T w j := by
  have hdown := hw.shutDown i hi
  have hstep : w.step C ssl i .shutdown =
      w.put i { w.node i with hsm := (w.hsm i).shutdown C } := rfl
  rw [hstep]
  generalize (w.hsm i).shutdown C = s at hdown ⊢
  have hself : (w.put i { w.node i with hsm := s }).hsm i = s := put_hsm_self w i _
  have hmanagers : ∀ j ≠ i,
      (w.put i { w.node i with hsm := s }).managers j = w.managers j :=
    fun j hj => put_managers_of_ne w _ hj
  have hsession : ((w.put i { w.node i with hsm := s }).managers i).hsm = s.toHsmSession :=
    congrArg Pkcs11Hsm.toHsmSession hself
  refine ⟨hw.of_node hmanagers hdown.sound hdown.idle ?_ hdown.used.symm.subset
    (fun _ hk => (hdown.key.mp hk).2.1) (fun hj hne => (hdown.isOpen hj).trans (hw.isOpen hne))
    ?_ ?_ ?_, fun slot => ?_, fun j hj => hdown.material_other hw hi hj (hmanagers j hj) rfl⟩
  · rw [hsession, hdown.session]
    exact hdown.sound.idle hdown.sound.invalid
  · rw [hsession]
    exact fun hne => absurd hdown.session hne
  · intro slot h hs
    rw [put_handle_self] at hs
    have hs : (w.managers i).handle slot = some h := hs
    rw [hself]
    exact hdown.own hw hs
  · rw [hsession]
    exact iff_of_true hdown.finalized hdown.session
  · simp only [material, hself]
    cases ((w.put i { w.node i with hsm := s }).managers i).handle slot with
    | none => rfl
    | some h => exact hdown.keyValue_self h

end Nodes

/-- An instance is shut down that has a session. -/
def Ends (w : TokenNodes τ ι) (e : ι × NodeEvent) : Prop :=
  e.2 = .shutdown ∧ (w.managers e.1).hsm.session ≠ 0

/-- Some instance is shut down while it has a session. -/
def ShutsDown (C : Cryptoki τ) (ssl : Evp) : TokenNodes τ ι → List (ι × NodeEvent) → Prop
  | _, [] => False
  | w, e :: events => w.Ends e ∨ ShutsDown C ssl (w.step C ssl e.1 e.2) events

section Runs
variable {T} {w : TokenNodes τ ι} {j : ι}

/-- An event of another node takes the keys, or changes nothing. -/
theorem Apart.step (hw : Apart T w) (e : ι × NodeEvent) :
    Apart T (w.step C ssl e.1 e.2) ∧ ∀ j ≠ e.1,
      (w.Ends e ∧ T.isPrivate = true →
        material T (w.step C ssl e.1 e.2) j = lost (material T w j)) ∧
      (¬ (w.Ends e ∧ T.isPrivate = true) →
        material T (w.step C ssl e.1 e.2) j = material T w j) := by
  obtain ⟨i, event⟩ := e
  cases event with
  | construct ivs =>
    obtain ⟨hapart, hsame⟩ := hw.construct ssl i ivs
    exact ⟨hapart, fun j hj => ⟨fun h => (by cases h.1.1), fun _ => hsame j hj⟩⟩
  | call c =>
    obtain ⟨hapart, hsame⟩ := hw.call ssl i c
    exact ⟨hapart, fun j hj => ⟨fun h => (by cases h.1.1), fun _ => hsame j hj⟩⟩
  | shutdown =>
    by_cases hi : (w.managers i).hsm.session = 0
    · have hfinalized : (w.hsm i).members.softFinalized = true := (hw.finalized i).mpr hi
      have hsame : w.step C ssl i .shutdown = w := by
        have hshutdown : (w.hsm i).shutdown C = w.hsm i := if_pos hfinalized
        have hstep : w.step C ssl i .shutdown =
            w.put i { w.node i with hsm := (w.hsm i).shutdown C } := rfl
        rw [hstep, hshutdown]
        exact put_node w i
      rw [hsame]
      exact ⟨hw, fun j _ => ⟨fun h => absurd hi h.1.2, fun _ => rfl⟩⟩
    · obtain ⟨hapart, -, hothers⟩ := hw.shutdown ssl i hi
      refine ⟨hapart, fun j hj => ⟨fun h => ?_, fun h => ?_⟩⟩
      · rw [hothers j hj, if_pos h.2]
      · rw [hothers j hj, if_neg fun hprivate => h ⟨⟨rfl, hi⟩, hprivate⟩]

theorem Apart.run (hw : Apart T w) (events : List (ι × NodeEvent)) :
    Apart T (w.run C ssl events) := by
  induction events generalizing w with
  | nil => exact hw
  | cons e events ih => exact ih (hw.step ssl e).1

omit [DecidableEq ι] in
@[simp] theorem lost_lost (m : KeyMaterial) : lost (lost m) = lost m := rfl

/-- The events of other nodes leave the keys of a node, unless one of them is shut down. -/
theorem Apart.material_run (hw : Apart T w) {events : List (ι × NodeEvent)}
    (hothers : ∀ e ∈ events, e.1 ≠ j) :
    (ShutsDown C ssl w events ∧ T.isPrivate = true →
      material T (w.run C ssl events) j = lost (material T w j)) ∧
    (¬ (ShutsDown C ssl w events ∧ T.isPrivate = true) →
      material T (w.run C ssl events) j = material T w j) := by
  induction events generalizing w with
  | nil => exact ⟨fun h => h.1.elim, fun _ => rfl⟩
  | cons e events ih =>
    obtain ⟨hapart, hstep⟩ := hw.step (C := C) ssl e
    obtain ⟨htaken, hkept⟩ := hstep j (hothers e List.mem_cons_self).symm
    obtain ⟨htaken', hkept'⟩ := ih hapart fun e' he' => hothers e' (List.mem_cons_of_mem _ he')
    have hrun : w.run C ssl (e :: events) = (w.step C ssl e.1 e.2).run C ssl events := rfl
    rw [hrun]
    by_cases hends : w.Ends e ∧ T.isPrivate = true
    · refine ⟨fun _ => ?_, fun hnot => absurd ⟨.inl hends.1, hends.2⟩ hnot⟩
      by_cases hrest : ShutsDown C ssl (w.step C ssl e.1 e.2) events ∧ T.isPrivate = true
      · rw [htaken' hrest, htaken hends, lost_lost]
      · rw [hkept' hrest, htaken hends]
    · rw [← hkept hends]
      refine ⟨fun h => htaken' ⟨?_, h.2⟩, fun hnot => hkept' fun h => hnot ⟨.inr h.1, h.2⟩⟩
      exact h.1.resolve_left fun hfirst => hends ⟨hfirst, h.2⟩

theorem step_managers_of_ne (w : TokenNodes τ ι) {i : ι} (event : NodeEvent) (hj : j ≠ i) :
    (w.step C ssl i event).managers j = w.managers j := by
  cases event with
  | construct ivs =>
    simp only [step]
    split
    · rfl
    · split
      · rfl
      · exact Function.update_of_ne hj _ _
  | call c => exact put_managers_of_ne w _ hj
  | shutdown => exact put_managers_of_ne w _ hj

theorem run_managers_of_ne (w : TokenNodes τ ι) {events : List (ι × NodeEvent)}
    (hothers : ∀ e ∈ events, e.1 ≠ j) : (w.run C ssl events).managers j = w.managers j := by
  induction events generalizing w with
  | nil => rfl
  | cons e events ih =>
    have hrest := ih (w.step C ssl e.1 e.2) fun e' he' => hothers e' (List.mem_cons_of_mem _ he')
    exact hrest.trans (step_managers_of_ne ssl w e.2 (hothers e List.mem_cons_self).symm)

/-- The nodes of a process keep their keys apart on the one token that they share, whatever
constructions and calls are interleaved. But if keys are private there, the shutdown of any one
of them takes the keys of all the others, which still hold their handles and their epoch. -/
theorem nodes_apart (hw : Fresh T w) (before events : List (ι × NodeEvent))
    (hothers : ∀ e ∈ events, e.1 ≠ j) :
    let w₁ := w.run C ssl before
    let w₂ := w₁.run C ssl events
    w₂.managers j = w₁.managers j ∧
      (ShutsDown C ssl w₁ events ∧ T.isPrivate = true →
        material T w₂ j = lost (material T w₁ j)) ∧
      (¬ (ShutsDown C ssl w₁ events ∧ T.isPrivate = true) →
        material T w₂ j = material T w₁ j) :=
  ⟨run_managers_of_ne ssl _ hothers, (hw.apart.run ssl before).material_run ssl hothers⟩

end Runs

/-- Two nodes that are still to be constructed. -/
def toBeConstructed : TokenNodes ListToken Bool where
  token := ⟨[], [], fun _ => none, false⟩
  managers _ := KeyManager.new ⟨0, fun _ => none, fun _ => none, 0xEC000000, true⟩

theorem toBeConstructed_fresh : Fresh ListToken.token toBeConstructed := by
  refine ⟨fun h => ?_, fun s => ?_, fun _ => rfl, fun i => ⟨rfl, rfl, fun slot => ?_⟩⟩
  · cases h <;> rfl
  · cases s <;> rfl
  · cases slot <;> rfl

/-- The second node has a key until the first is shut down. -/
theorem nodes_apart_shutdown :
    let w := toBeConstructed.run ListToken.calls SoftHsm.toySsl
      [(false, .construct fun _ => none), (true, .construct fun _ => none),
        (true, .call (.op .generateTek))]
    ((material ListToken.token w true).key .tek).isSome ∧
      material ListToken.token (w.run ListToken.calls SoftHsm.toySsl [(false, .shutdown)]) true =
        lost (material ListToken.token w true) := by
  refine ⟨by decide,
    (nodes_apart SoftHsm.toySsl toBeConstructed_fresh _ _ ?_).2.1 ⟨.inl ⟨rfl, ?_⟩, rfl⟩⟩
  · simp
  · decide

end TokenNodes
end Cirradio.Security
