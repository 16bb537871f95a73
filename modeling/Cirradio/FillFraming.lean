import Cirradio.FillScrubbing

/-!
# Frames over the line

The frames that one port sends are the frames that another receives, however the line
cuts up the bytes, and a frame takes from the line what it was sent as.
-/

namespace Cirradio.Security
namespace KeyFillPort

variable {σ : Type} {p q : KeyFillPort σ}

/-- `recv_frame` of a port. -/
def receive (q : KeyFillPort σ) : Option FillFrame × KeyFillPort σ :=
  if q.fd < 0 then (none, q)
  else
    let (frame, incoming) := recvFrame q.incoming
    (frame, { q with incoming })

/-- Send the frames one after the other, whatever becomes of each. -/
def sendFrames : List FillFrame → KeyFillPort σ → List Bool × KeyFillPort σ
  | [], p => ([], p)
  | f :: frames, p =>
    let (sent, p) := sendFrame f.type f.payload p
    let (later, p) := sendFrames frames p
    (sent :: later, p)

/-- Receive so many times. -/
def receiveFrames : ℕ → KeyFillPort σ → List (Option FillFrame) × KeyFillPort σ
  | 0, q => ([], q)
  | n + 1, q =>
    let (frame, q) := receive q
    let (later, q) := receiveFrames n q
    (frame :: later, q)

/-- The bytes of the frames. -/
def wires (frames : List FillFrame) : Bytes := (frames.map wire).flatten

@[simp]
theorem wires_cons (f : FillFrame) (frames : List FillFrame) :
    wires (f :: frames) = wire f ++ wires frames := rfl

theorem sendFrame_true {type : FillMsgType} {payload : Bytes}
    (h : (sendFrame type payload p).1 = true) :
    (sendFrame type payload p).2.sent = p.sent ++ wire ⟨type, payload⟩ := by
  have hopen : 0 ≤ p.fd := by
    by_contra hclosed
    have hfalse : sendFrame type payload p = (false, p) := if_pos (Int.not_le.mp hclosed)
    rw [hfalse] at h
    cases h
  have hthrough : GetsThrough p.writes payload := by
    by_contra hnot
    rw [sendFrame_of_not hopen type hnot] at h
    cases h
  rw [sendFrame_of_getsThrough hopen type hthrough]

theorem sendFrames_sent {frames : List FillFrame} (h : ∀ sent ∈ (sendFrames frames p).1, sent) :
    (sendFrames frames p).2.sent = p.sent ++ wires frames := by
  induction frames generalizing p with
  | nil => exact (List.append_nil p.sent).symm
  | cons f frames ih =>
    have hfirst : (sendFrame f.type f.payload p).1 = true := h _ List.mem_cons_self
    have hlater : ∀ sent ∈ (sendFrames frames (sendFrame f.type f.payload p).2).1, sent :=
      fun sent hmem => h sent (List.mem_cons_of_mem _ hmem)
    have hsent := sendFrame_true hfirst
    calc (sendFrames (f :: frames) p).2.sent
        = (sendFrame f.type f.payload p).2.sent ++ wires frames := ih hlater
      _ = p.sent ++ wires (f :: frames) := by
        rw [hsent, wires_cons, List.append_assoc]

theorem sendFrames_open (hopen : Open p) (frames : List FillFrame) :
    ∀ sent ∈ (sendFrames frames p).1, sent := by
  induction frames generalizing p with
  | nil => exact fun _ hmem => nomatch hmem
  | cons f frames ih =>
    obtain ⟨bytes, hsend⟩ := sendFrame_open hopen f.type f.payload
    have hopen' : Open { p with sent := bytes } := hopen
    unfold sendFrames
    rw [hsend]
    intro sent hmem
    rcases List.mem_cons.mp hmem with rfl | hmem
    · rfl
    · exact ih hopen' sent hmem

theorem receive_carries (hopen : 0 ≤ q.fd) {f : FillFrame} {rest : Bytes}
    (hlen : f.payload.length ≤ 4096) (hline : Carries q.incoming (wire f ++ rest)) :
    ∃ later, receive q = (some f, { q with incoming := later }) ∧ Carries later rest := by
  obtain ⟨later, hframe, hrest⟩ := recvFrame_carries hlen hline
  refine ⟨later, ?_, hrest⟩
  unfold receive
  rw [if_neg (Int.not_lt.mpr hopen), hframe]

/-- Each of the first so many receptions takes one frame from the line. -/
theorem receiveFrames_carries (hopen : 0 ≤ q.fd) {frames : List FillFrame} {rest : Bytes}
    (hlen : ∀ f ∈ frames, f.payload.length ≤ 4096)
    (hline : Carries q.incoming (wires frames ++ rest)) {n : ℕ} (hn : n ≤ frames.length) :
    (receiveFrames n q).1 = (frames.take n).map some ∧
      Carries (receiveFrames n q).2.incoming (wires (frames.drop n) ++ rest) := by
  induction n generalizing q frames with
  | zero => exact ⟨rfl, hline⟩
  | succ n ih =>
    cases frames with
    | nil => exact absurd hn (Nat.not_succ_le_zero n)
    | cons f frames =>
      rw [wires_cons, List.append_assoc] at hline
      obtain ⟨later, hreceive, hlater⟩ := receive_carries hopen (hlen f List.mem_cons_self) hline
      have hlen' : ∀ f ∈ frames, f.payload.length ≤ 4096 := fun f hf =>
        hlen f (List.mem_cons_of_mem _ hf)
      have hopen' : 0 ≤ ({ q with incoming := later } : KeyFillPort σ).fd := hopen
      obtain ⟨hframes, hrest⟩ := ih hopen' hlen' hlater (Nat.le_of_succ_le_succ hn)
      unfold receiveFrames
      rw [hreceive]
      exact ⟨congrArg (some f :: ·) hframes, hrest⟩

/-- What one port sends in successful calls the other receives, frame by frame, in whatever
pieces the line delivers the bytes; what comes behind a frame is left for the next. -/
theorem receiveFrames_sendFrames {frames : List FillFrame}
    (hlen : ∀ f ∈ frames, f.payload.length ≤ 4096)
    (hsent : ∀ sent ∈ (sendFrames frames p).1, sent) (hopen : 0 ≤ q.fd) {bytes rest : Bytes}
    (hbytes : (sendFrames frames p).2.sent = p.sent ++ bytes)
    (hline : Carries q.incoming (bytes ++ rest)) {n : ℕ} (hn : n ≤ frames.length) :
    (receiveFrames n q).1 = (frames.take n).map some ∧
      Carries (receiveFrames n q).2.incoming (wires (frames.drop n) ++ rest) := by
  have hwires : bytes = wires frames :=
    List.append_cancel_left (hbytes.symm.trans (sendFrames_sent hsent))
  subst hwires
  exact receiveFrames_carries hopen hlen hline hn

/-- Two frames of which the line delivers the first in three pieces, and the last piece
of the first with the second. -/
theorem receiveFrames_sendFrames_pieces :
    (receiveFrames 2 { unsignedPeer with
      incoming := [some [1, 0], some [2, 7], some [8, 7, 0, 0]] }).1 =
        [some ⟨.hello, [7, 8]⟩, some ⟨.ack, []⟩] := by
  have hopen : Open unsignedPeer := ⟨by decide, rfl⟩
  have hline : Carries [some [1, 0], some [2, 7], some [8, 7, 0, 0]]
      ([1, 0, 2, 7, 8, 7, 0, 0] ++ []) :=
    ⟨[[1, 0], [2, 7], [8, 7, 0, 0]], rfl, by decide, rfl⟩
  exact (receiveFrames_sendFrames (p := unsignedPeer)
    (q := { unsignedPeer with incoming := [some [1, 0], some [2, 7], some [8, 7, 0, 0]] })
    (by decide) (sendFrames_open hopen [⟨.hello, [7, 8]⟩, ⟨.ack, []⟩]) (by decide) rfl hline
    (Nat.le_refl 2)).1

end KeyFillPort
end Cirradio.Security
