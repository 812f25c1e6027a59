import FramedRelay.Proofs.Frame.Emission
import FramedRelay.Proofs.Frame.Prefixed

/-!
# Streams of messages

Length-prefixed frames tell where they end, so messages that were sent one after another
(`sendAll`) are received one after another (`receiveAll`), each as it was sent, and what follows
them on the link is left to read. `receiveAll_sendAll` says so for writes that accept any part of
what they are offered and reads that cut the bytes anywhere, with interruptions among both.
-/

namespace FramedRelay

/-- Sends messages one after another, each by a deadline of its own, until one fails. -/
def sendAll (framing : Framing) : List (Bytes × Deadline) → Link → Except Stop Unit × Link
  | [], l => (.ok (), l)
  | (payload, d) :: messages, l =>
    match send framing payload d l with
    | (.ok (), l, _) => sendAll framing messages l
    | (.error stop, l, _) => (.error stop, l)

/-- Receives a message by each of some deadlines, one after another, until one fails. -/
def receiveAll (framing : Framing) (limit : Nat) :
    List Deadline → Link → Except Stop (List Bytes) × Link
  | [], l => (.ok [], l)
  | d :: ds, l =>
    match receive framing limit d l with
    | (.ok payload, l, _) =>
      let (result, l) := receiveAll framing limit ds l
      (result.map (payload :: ·), l)
    | (.error stop, l, _) => (.error stop, l)

/-- None of the messages is held up while it is sent. -/
def SendsPromptly (framing : Framing) : List (Bytes × Deadline) → Link → Prop
  | [], _ => True
  | (payload, d) :: messages, l =>
    Sending.Prompt d (framing.encode payload).length (framing.encode payload) l ∧
      SendsPromptly framing messages (send framing payload d l).2.1

/-- None of the messages is held up while it is received. -/
def ReceivesPromptly (framing : Framing) (limit : Nat) : List Deadline → Link → Prop
  | [], _ => True
  | d :: ds, l =>
    Receiving.Prompt limit d (.start framing) l ∧
      ReceivesPromptly framing limit ds (receive framing limit d l).2.1

theorem Link.Punctual.sendsPromptly (framing : Framing) :
    ∀ {messages : List (Bytes × Deadline)} {l : Link}, (∀ m ∈ messages, l.Punctual m.2) →
      SendsPromptly framing messages l
  | [], _, _ => trivial
  | (payload, d) :: messages, l, h =>
    ⟨(h (payload, d) (by simp)).prompt_sending _ _,
      sendsPromptly framing fun m hm => (h m (by simp [hm])).send framing payload⟩

theorem Link.Punctual.receivesPromptly (framing : Framing) (limit : Nat) :
    ∀ {ds : List Deadline} {l : Link}, (∀ d ∈ ds, l.Punctual d) →
      ReceivesPromptly framing limit ds l
  | [], _, _ => trivial
  | d :: ds, l, h =>
    ⟨(h d (by simp)).prompt_receiving limit _,
      receivesPromptly framing limit fun d' hd' => (h d' (by simp [hd'])).receive framing limit⟩

/-- Sending succeeds over an accepting link, and writes the frames one after another. -/
theorem sendAll_of_accepting (framing : Framing) :
    ∀ {messages : List (Bytes × Deadline)} {l : Link}, l.Accepting →
      SendsPromptly framing messages l → (sendAll framing messages l).1 = .ok () ∧
        (sendAll framing messages l).2.written =
          l.written ++ messages.flatMap fun m => framing.encode m.1
  | [], l, _, _ => ⟨rfl, by simp [sendAll]⟩
  | (payload, d) :: messages, l, hl, ⟨hprompt, hlater⟩ => by
    obtain ⟨hresult, hwritten, hl'⟩ := Sending.run_of_accepting hprompt hl
    obtain ⟨hresults, hall⟩ := sendAll_of_accepting framing hl' hlater
    have hsend : send framing payload d l =
        (.ok (), (send framing payload d l).2.1, (send framing payload d l).2.2) :=
      Prod.ext hresult rfl
    rw [sendAll, hsend]
    refine ⟨hresults, hall.trans ?_⟩
    simp only [hwritten, List.flatMap_cons, List.append_assoc]

/-- Frames that come one after another are received as the messages they are the frames of. -/
theorem receiveAll_encode {limit : Nat} {rest : Bytes} :
    ∀ {payloads : List Bytes} {ds : List Deadline} {l : Link},
      (∀ p ∈ payloads, p.length ≤ limit ∧ p.length < bufferLimit) →
      ds.length = payloads.length →
      l.arrivals = (payloads.flatMap fun p => Framing.lengthPrefixed.encode p) ++ rest →
      ReceivesPromptly .lengthPrefixed limit ds l →
      (receiveAll .lengthPrefixed limit ds l).1 = .ok payloads ∧
        (receiveAll .lengthPrefixed limit ds l).2.arrivals = rest ∧
        (receiveAll .lengthPrefixed limit ds l).2.ending = l.ending
  | [], [], l, _, _, hl, _ => ⟨rfl, hl, rfl⟩
  | payload :: payloads, d :: ds, l, hpayloads, hds, hl, ⟨hprompt, hlater⟩ => by
    obtain ⟨hlimit, hbuffer⟩ := hpayloads payload (by simp)
    rw [List.flatMap_cons, List.append_assoc] at hl
    obtain ⟨hresult, hrest, hending⟩ := receive_encode hprompt hlimit hbuffer hl
    obtain ⟨hresults, hrests, hendings⟩ := receiveAll_encode
      (fun p hp => hpayloads p (by simp [hp])) (by simpa using hds) hrest hlater
    have hreceive : receive .lengthPrefixed limit d l = (.ok payload,
        (receive .lengthPrefixed limit d l).2.1, (receive .lengthPrefixed limit d l).2.2) :=
      Prod.ext hresult rfl
    rw [receiveAll, hreceive]
    refine ⟨?_, hrests, hendings.trans hending⟩
    simp only [hresults]
    rfl

/-- Length-prefixed framing delimits itself. Let messages within the limit be sent one after
another over a link that accepts some of every offer, and let nothing be held up. All are sent,
and from any link that gives the bytes so written and then `rest`, as many calls receive exactly
these messages, in order, and leave exactly `rest` to read. -/
theorem receiveAll_sendAll {limit : Nat} {messages : List (Bytes × Deadline)} {l : Link}
    (hmessages : ∀ m ∈ messages, m.1.length ≤ limit ∧ m.1.length < bufferLimit)
    (hl : l.Accepting) (hsends : SendsPromptly .lengthPrefixed messages l) :
    (sendAll .lengthPrefixed messages l).1 = .ok () ∧
      ∃ sent, (sendAll .lengthPrefixed messages l).2.written = l.written ++ sent ∧
        ∀ (r : Link) (rest : Bytes) (ds : List Deadline), r.arrivals = sent ++ rest →
          ds.length = messages.length → ReceivesPromptly .lengthPrefixed limit ds r →
          (receiveAll .lengthPrefixed limit ds r).1 = .ok (messages.map Prod.fst) ∧
            (receiveAll .lengthPrefixed limit ds r).2.arrivals = rest ∧
            (receiveAll .lengthPrefixed limit ds r).2.ending = r.ending := by
  obtain ⟨hresult, hwritten⟩ := sendAll_of_accepting .lengthPrefixed hl hsends
  refine ⟨hresult, _, hwritten, fun r rest ds hr hds hreceives => ?_⟩
  refine receiveAll_encode (fun p hp => ?_) (by simpa using hds) ?_ hreceives
  · obtain ⟨m, hm, rfl⟩ := List.mem_map.1 hp
    exact hmessages m hm
  · rw [hr, List.flatMap_map]

/-- A link that accepts three bytes, then is interrupted, then accepts one byte, then anything. -/
def haltingLink : Link where
  writes := [{ result := .ok (some 3) }, { result := .error (.ofSystem 4) },
    { delay := 2, result := .ok (some 1) }]

/-- A link that gives the frames of an empty message and of one with a line feed in it, and a
byte more, cut within the headers and within the body. -/
def cutLink : Link where
  reads := [{ result := .ok [0, 0, 0] }, { result := .error (.ofSystem 4) },
    { delay := 2, result := .ok [0, 0, 0, 0, 0, 3, 0, 0] },
    { result := .ok [0, 0, 0, 0, 0, 0x61] }, { result := .ok [0x0A, 0x62, 0x7A] }]

/-- An empty message and one with a line feed in it. -/
def twoMessages : List (Bytes × Deadline) :=
  [([], ⟨9, "sending"⟩), ([0x61, 0x0A, 0x62], ⟨9, "sending"⟩)]

theorem receiveAll_sendAll_cutLink :
    (sendAll .lengthPrefixed twoMessages haltingLink).1 = .ok () ∧
      (receiveAll .lengthPrefixed 3 [⟨9, "waiting"⟩, ⟨9, "waiting"⟩] cutLink).1 =
        .ok [[], [0x61, 0x0A, 0x62]] ∧
      (receiveAll .lengthPrefixed 3 [⟨9, "waiting"⟩, ⟨9, "waiting"⟩] cutLink).2.arrivals =
        [0x7A] := by
  have hmessages : ∀ m ∈ twoMessages, m.1.length ≤ 3 ∧ m.1.length < bufferLimit := by decide
  have haccepting : haltingLink.Accepting := by
    refine ⟨?_, by simp [haltingLink]⟩
    simp only [haltingLink, List.forall_mem_cons]
    exact ⟨Or.inr (Or.inl ⟨2, rfl⟩), Or.inr (Or.inr ⟨_, rfl, rfl⟩), Or.inr (Or.inl ⟨0, rfl⟩),
      by simp⟩
  have hsends : SendsPromptly .lengthPrefixed twoMessages haltingLink :=
    Link.Punctual.sendsPromptly _ (by simp [twoMessages]; exact ⟨by decide, by decide⟩)
  have hreceives : ReceivesPromptly .lengthPrefixed 3 [⟨9, "waiting"⟩, ⟨9, "waiting"⟩] cutLink :=
    Link.Punctual.receivesPromptly _ _ (by simp; exact ⟨by decide, by decide⟩)
  obtain ⟨hok, sent, hsent, hreceive⟩ := receiveAll_sendAll hmessages haccepting hsends
  have hframes := hsent.symm.trans (sendAll_of_accepting .lengthPrefixed haccepting hsends).2
  obtain rfl := List.append_cancel_left hframes
  obtain ⟨hresult, hrest, -⟩ := hreceive cutLink [0x7A] _ (by decide) rfl hreceives
  exact ⟨hok, hresult, hrest⟩

end FramedRelay
