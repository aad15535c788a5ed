import Filigrio.Protocol.Socket

/-!
# Filigrio.Protocol.Complete

A request that fits a frame is answered: while no call fails, no order of the two sides'
reads and writes, and no way of cutting them into chunks, leaves a connection waiting,
and each ends with the response in the client's hands.
-/

open Frame

namespace Filigrio.Socket

variable {Req Resp : Type*} {w : Wire Req Resp} {c c' : Conn Req Resp} {q : Req}
  {r : Except String Resp}

/-- No call fails, and what the handler returns is `r`. -/
def Faultless (r : Except String Resp) (_ : Conn Req Resp) : Move Resp → Prop
  | .clientFail _ | .serverFail _ | .crash => False
  | .answer r' => r' = r
  | _ => True

/-- The client has the reply to `r`, the handler's only answer, to its only call. -/
def Delivered (w : Wire Req Resp) (q : Req) (r : Except String Resp) (c : Conn Req Resp) : Prop :=
  c.client = .returned q (.ok (w.reply r)) ∧ c.calls = [q] ∧ c.answers = [(q, r)]

/-- A connection on which nothing went wrong so far. -/
structure OnCourse (w : Wire Req Resp) (q : Req) (r : Except String Resp) (c : Conn Req Resp) :
    Prop where
  good : Good w c
  request : c.client.request? = some q
  client : ∀ e, c.client ≠ .returned q (.error e)
  server : ∀ e, c.server ≠ .closed (.error e)
  alive : c.server ≠ .crashed
  answers : ∀ a ∈ c.answers, a.2 = r

/-- Both messages fit a frame. -/
structure Fits (w : Wire Req Resp) (q : Req) (r : Except String Resp)
    (there back : List UInt8) : Prop where
  request : w.request.encode q = .ok there
  request_le : there.length ≤ maxFrame
  response : w.response.encode (w.reply r) = .ok back
  response_lt : back.length < 2 ^ 32

theorem lt_of_le_maxFrame {n : ℕ} (h : n ≤ maxFrame) : n < 2 ^ 32 :=
  Nat.lt_of_le_of_lt h (by decide)

/-! ### What each side reads -/

variable {there back : List UInt8}

theorem OnCourse.opens (h : OnCourse w q r c) (hfits : Fits w q r there back) :
    c.up.wrote <+: framed there := by
  rcases h.good.client.opens h.request with hnil | ⟨body, hbody, hpre⟩
  · rw [hnil]
    exact List.nil_prefix
  · rw [hfits.request] at hbody
    cases hbody
    exact hpre

/-- What came down is from the frame of the response, and only after it was given. -/
theorem OnCourse.down (h : OnCourse w q r c) (hfits : Fits w q r there back) :
    c.down.wrote <+: framed back := by
  cases h.good.server.served with
  | unasked _ _ hdown =>
      rw [hdown]
      exact List.nil_prefix
  | called _ _ _ _ hdown =>
      rw [hdown]
      exact List.nil_prefix
  | answered p r' _ _ hanswers hdown =>
      obtain rfl : r' = r := h.answers (p, r') (by simp [hanswers])
      rcases hdown with hnil | ⟨body, hbody, hpre⟩
      · rw [hnil]
        exact List.nil_prefix
      · rw [hfits.response] at hbody
        cases hbody
        exact hpre

/-- The daemon reads the length of the request, which is admissible. -/
theorem OnCourse.length_read {got : List UInt8} (h : OnCourse w q r c)
    (hfits : Fits w q r there back) (hc : c.server = .reading (.length got))
    (hgot : got.length = 4) : ofBe32 got = there.length := by
  have hserver := h.good.server
  rw [hc] at hserver
  obtain ⟨htook, -⟩ := hserver.1
  have hpre : got ++ [] <+: framed there := by
    rw [List.append_nil, ← htook]
    exact c.up.taken_prefix.trans (h.opens hfits)
  exact length_of_framed hgot (lt_of_le_maxFrame hfits.request_le) hpre

/-- The daemon reads the request. -/
theorem OnCourse.request_read {len : ℕ} {got : List UInt8} (h : OnCourse w q r c)
    (hfits : Fits w q r there back) (hc : c.server = .reading (.body len got))
    (hgot : got.length = len) : got = there := by
  have hserver := h.good.server
  rw [hc] at hserver
  exact (hserver.1.starts hgot).eq_of_framed (h.opens hfits) (lt_of_le_maxFrame hfits.request_le)

/-- The client reads the response. -/
theorem OnCourse.response_read {len : ℕ} {got : List UInt8} (h : OnCourse w q r c)
    (hfits : Fits w q r there back) (hc : c.client = .reading q (.body len got))
    (hgot : got.length = len) : got = back := by
  have hclient := h.good.client
  rw [hc] at hclient
  exact (hclient.1.starts hgot).eq_of_framed (h.down hfits) hfits.response_lt

/-! ### Nothing goes wrong, and every move gets closer -/

/-- How many phases the client has before it. -/
def Client.rank : Client Req Resp → ℕ
  | serialising _ => 4
  | sending _ _ => 3
  | reading _ (.length _) => 2
  | reading _ (.body _ _) => 1
  | returned _ _ | stranger => 0

/-- How many bytes it has to move in the present one. -/
def Client.left : Client Req Resp → ℕ
  | sending _ left => left.length
  | reading _ r => r.missing
  | _ => 0

def Server.rank : Server Req → ℕ
  | reading (.length _) => 4
  | reading (.body _ _) => 3
  | handling _ => 2
  | writing _ => 1
  | closed _ | crashed => 0

def Server.left : Server Req → ℕ
  | reading r => r.missing
  | writing left => left.length
  | _ => 0

/-- Fewer phases, or as many and fewer bytes in this one. -/
def Closer (rank left rank' left' : ℕ) : Prop := rank' < rank ∨ rank' = rank ∧ left' < left

/-- The client moved on, and met no error. -/
structure ClientMoved (q : Req) (c c' : Conn Req Resp) : Prop where
  server : c'.server = c.server
  answers : c'.answers = c.answers
  request : c'.client.request? = some q
  ok : ∀ e, c'.client ≠ .returned q (.error e)
  closer : Closer c.client.rank c.client.left c'.client.rank c'.client.left

/-- The daemon moved on, and met no error. -/
structure ServerMoved (r : Except String Resp) (c c' : Conn Req Resp) : Prop where
  client : c'.client = c.client
  ok : ∀ e, c'.server ≠ .closed (.error e)
  alive : c'.server ≠ .crashed
  answers : ∀ a ∈ c'.answers, a.2 = r
  closer : Closer c.server.rank c.server.left c'.server.rank c'.server.left

theorem clientNext_moved (h : OnCourse w q r c) (hfits : Fits w q r there back)
    (hresp : w.response.Lawful) (hs : clientNext w c = some c') : ClientMoved q c c' := by
  have hrequest := h.request
  unfold clientNext at hs
  split at hs
  · rename_i q' hc
    obtain rfl : q' = q := by simpa [hc, Client.request?] using hrequest
    rw [hfits.request] at hs
    cases hs
    exact ⟨rfl, rfl, rfl, by simp, Or.inl (by rw [hc]; simp [Client.rank])⟩
  · rename_i q' hc
    obtain rfl : q' = q := by simpa [hc, Client.request?] using hrequest
    cases hs
    exact ⟨rfl, rfl, rfl, by simp, Or.inl (by rw [hc]; simp [Client.rank, Reader.start])⟩
  · rename_i q' got hc
    obtain rfl : q' = q := by simpa [hc, Client.request?] using hrequest
    split at hs
    · cases hs
      exact ⟨rfl, rfl, rfl, by simp, Or.inl (by rw [hc]; simp [Client.rank])⟩
    · cases hs
  · rename_i q' len got hc
    obtain rfl : q' = q := by simpa [hc, Client.request?] using hrequest
    split at hs
    · rename_i hgot
      obtain rfl := h.response_read hfits hc hgot
      rw [hresp.decode_encode _ _ hfits.response] at hs
      cases hs
      exact ⟨rfl, rfl, rfl, by simp, Or.inl (by rw [hc]; simp [Client.rank])⟩
    · cases hs
  · cases hs

theorem serverNext_moved (h : OnCourse w q r c) (hfits : Fits w q r there back)
    (hreq : w.request.Lawful) (hs : serverNext w c = some c') : ServerMoved r c c' := by
  have hanswers := h.answers
  unfold serverNext at hs
  split at hs
  · rename_i got hc
    split at hs
    · rename_i hgot
      have hlen : ¬ ofBe32 got > maxFrame := by
        rw [h.length_read hfits hc hgot]
        exact Nat.not_lt.mpr hfits.request_le
      rw [if_neg hlen] at hs
      cases hs
      exact ⟨rfl, by simp, by simp, hanswers, Or.inl (by rw [hc]; simp [Server.rank])⟩
    · cases hs
  · rename_i len got hc
    split at hs
    · rename_i hgot
      obtain rfl := h.request_read hfits hc hgot
      rw [hreq.decode_encode _ _ hfits.request] at hs
      cases hs
      exact ⟨rfl, by simp, by simp, hanswers, Or.inl (by rw [hc]; simp [Server.rank])⟩
    · cases hs
  · rename_i hc
    cases hs
    exact ⟨rfl, by simp, by simp, hanswers, Or.inl (by rw [hc]; simp [Server.rank])⟩
  · cases hs

theorem step_moved (h : OnCourse w q r c) (hfits : Fits w q r there back)
    (hreq : w.request.Lawful) (hresp : w.response.Lawful) {m : Move Resp}
    (hm : Faultless r c m) (hs : step w c m = some c') :
    ClientMoved q c c' ∨ ServerMoved r c c' := by
  have hrequest := h.request
  have hanswers := h.answers
  cases m with
  | clientNext => exact Or.inl (clientNext_moved h hfits hresp hs)
  | clientWrite n =>
      simp only [step] at hs
      split at hs
      · rename_i q' left hc
        obtain rfl : q' = q := by simpa [hc, Client.request?] using hrequest
        split at hs
        · rename_i hn
          cases hs
          refine Or.inl ⟨rfl, rfl, rfl, by simp, Or.inr ⟨by rw [hc]; rfl, ?_⟩⟩
          rw [hc]
          simp only [Client.left, List.length_drop]
          omega
        · cases hs
      · cases hs
  | clientRead n =>
      simp only [step] at hs
      split at hs
      · rename_i q' x hc
        obtain rfl : q' = q := by simpa [hc, Client.request?] using hrequest
        split at hs
        · rename_i hn
          obtain ⟨hpos, hmissing, hpending⟩ := hn
          have hlen := Pipe.length_next c.down hpending
          cases hs
          refine Or.inl ⟨rfl, rfl, rfl, by simp, Or.inr ⟨by rw [hc]; cases x <;> rfl, ?_⟩⟩
          rw [hc]
          exact x.missing_feed (by omega) (by omega)
        · cases hs
      · cases hs
  | clientFail e => exact hm.elim
  | write bytes =>
      simp only [step] at hs
      split at hs
      · rename_i hc
        simp [hc, Client.request?] at hrequest
      · cases hs
  | serverNext => exact Or.inr (serverNext_moved h hfits hreq hs)
  | serverWrite n =>
      simp only [step] at hs
      split at hs
      · rename_i left hc
        split at hs
        · rename_i hn
          cases hs
          refine Or.inr ⟨rfl, by simp, by simp, hanswers, Or.inr ⟨by rw [hc]; rfl, ?_⟩⟩
          rw [hc]
          simp only [Server.left, List.length_drop]
          omega
        · cases hs
      · cases hs
  | serverRead n =>
      simp only [step] at hs
      split at hs
      · rename_i x hc
        split at hs
        · rename_i hn
          obtain ⟨hpos, hmissing, hpending⟩ := hn
          have hlen := Pipe.length_next c.up hpending
          cases hs
          refine Or.inr ⟨rfl, by simp, by simp, hanswers, Or.inr ⟨by rw [hc]; cases x <;> rfl, ?_⟩⟩
          rw [hc]
          exact x.missing_feed (by omega) (by omega)
        · cases hs
      · cases hs
  | serverFail e => exact hm.elim
  | answer r' =>
      obtain rfl : r' = r := hm
      simp only [step] at hs
      split at hs
      · rename_i q' hc
        rw [hfits.response] at hs
        cases hs
        refine Or.inr ⟨rfl, by simp, by simp, ?_, Or.inl (by rw [hc]; simp [Server.rank])⟩
        intro a ha
        rcases List.mem_append.mp ha with ha | ha
        · exact hanswers a ha
        · rw [List.mem_singleton.mp ha]
      · cases hs
  | crash => exact hm.elim

/-- No move without a fault leaves the course. -/
theorem OnCourse.next (h : OnCourse w q r c) (hfits : Fits w q r there back)
    (hreq : w.request.Lawful) (hresp : w.response.Lawful) {m : Move Resp}
    (hm : Faultless r c m) (hs : step w c m = some c') : OnCourse w q r c' := by
  have hgood := step_good h.good hs
  rcases step_moved h hfits hreq hresp hm hs with hmoved | hmoved
  · exact ⟨hgood, hmoved.request, hmoved.ok, hmoved.server ▸ h.server, hmoved.server ▸ h.alive,
      hmoved.answers ▸ h.answers⟩
  · exact ⟨hgood, hmoved.client ▸ h.request, hmoved.client ▸ h.client, hmoved.ok, hmoved.alive,
      hmoved.answers⟩

/-- What is left to do on both sides. -/
def toGo (c : Conn Req Resp) : ℕ ×ₗ ℕ :=
  toLex (c.client.rank + c.server.rank, c.client.left + c.server.left)

theorem toGo_lt (h : ClientMoved q c c' ∨ ServerMoved r c c') : toGo c' < toGo c := by
  rw [toGo, toGo, Prod.Lex.toLex_lt_toLex]
  rcases h with h | h
  · rcases h.closer with hlt | ⟨heq, hlt⟩
    · exact Or.inl (by simp only [h.server]; omega)
    · exact Or.inr ⟨by simp only [h.server]; omega, by simp only [h.server]; omega⟩
  · rcases h.closer with hlt | ⟨heq, hlt⟩
    · exact Or.inl (by simp only [h.client]; omega)
    · exact Or.inr ⟨by simp only [h.client]; omega, by simp only [h.client]; omega⟩

/-! ### Some move is always possible -/

theorem clientNext_possible {x : Reader} {bytes : List UInt8} (hc : c.client = .reading q x)
    (htook : x.Took bytes) (hmissing : x.missing = 0) : (clientNext w c).isSome := by
  rcases htook.full hmissing with ⟨got, rfl, hgot⟩ | ⟨len, got, rfl, hgot⟩
  · simp [clientNext, hc, hgot]
  · cases hv : w.response.decode got <;> simp [clientNext, hc, hgot, hv]

theorem serverNext_possible {x : Reader} {bytes : List UInt8} (hc : c.server = .reading x)
    (htook : x.Took bytes) (hmissing : x.missing = 0) : (serverNext w c).isSome := by
  rcases htook.full hmissing with ⟨got, rfl, hgot⟩ | ⟨len, got, rfl, hgot⟩
  · by_cases hlen : ofBe32 got > maxFrame <;> simp [serverNext, hc, hgot, hlen]
  · cases hv : w.request.decode got <;> simp [serverNext, hc, hgot, hv]

/-- While the client waits for bytes that are not there, the daemon can move. -/
theorem server_possible (h : OnCourse w q r c) (hfits : Fits w q r there back)
    (hwrote : c.up.wrote = framed there) {x : Reader} (htook : x.Took c.down.taken)
    (hmissing : 0 < x.missing) (hpending : c.down.pending = 0) :
    ∃ m, Faultless r c m ∧ (step w c m).isSome := by
  have hserver := h.good.server
  cases hc : c.server with
  | reading y =>
      rw [hc] at hserver
      obtain ⟨hy, -⟩ := hserver
      rcases Nat.eq_zero_or_pos y.missing with hzero | hpos
      · exact ⟨.serverNext, trivial, serverNext_possible hc hy hzero⟩
      · have hup : 0 < c.up.pending := by
          rw [Nat.pos_iff_ne_zero]
          intro hnone
          rw [Pipe.taken_of_pending _ hnone, hwrote] at hy
          exact hpos.ne' (hy.missing_eq_zero (lt_of_le_maxFrame hfits.request_le))
        have hn : 0 < 1 ∧ 1 ≤ y.missing ∧ 1 ≤ c.up.pending := ⟨Nat.one_pos, hpos, hup⟩
        exact ⟨.serverRead 1, trivial, by simp [step, hc, hn]⟩
  | handling q' =>
      exact ⟨.answer r, rfl, by simp [step, hc, hfits.response]⟩
  | writing left =>
      cases left with
      | nil => exact ⟨.serverNext, trivial, by simp [step, serverNext, hc]⟩
      | cons b left => exact ⟨.serverWrite 1, trivial, by simp [step, hc]⟩
  | closed result =>
      cases result with
      | error e => exact absurd hc (h.server e)
      | ok u =>
          rw [hc] at hserver
          obtain ⟨p, r', body, -, -, hanswers, hbody, hdown⟩ := hserver
          obtain rfl : r' = r := h.answers (p, r') (by simp [hanswers])
          rw [hfits.response] at hbody
          cases hbody
          rw [Pipe.taken_of_pending _ hpending, hdown] at htook
          exact absurd (htook.missing_eq_zero hfits.response_lt) hmissing.ne'
  | crashed => exact absurd hc h.alive

theorem OnCourse.possible (h : OnCourse w q r c) (hfits : Fits w q r there back)
    (hreq : w.request.Lawful) (hresp : w.response.Lawful) (hopen : ¬ Delivered w q r c) :
    ∃ m, Faultless r c m ∧ (step w c m).isSome := by
  have hclient := h.good.client
  have hrequest := h.request
  cases hc : c.client with
  | serialising q' =>
      obtain rfl : q' = q := by simpa [hc, Client.request?] using hrequest
      exact ⟨.clientNext, trivial, by simp [step, clientNext, hc, hfits.request]⟩
  | sending q' left =>
      cases left with
      | nil => exact ⟨.clientNext, trivial, by simp [step, clientNext, hc]⟩
      | cons b left => exact ⟨.clientWrite 1, trivial, by simp [step, hc]⟩
  | reading q' x =>
      obtain rfl : q' = q := by simpa [hc, Client.request?] using hrequest
      rw [hc] at hclient
      obtain ⟨htook, body, hbody, hwrote⟩ := hclient
      rw [hfits.request] at hbody
      cases hbody
      rcases Nat.eq_zero_or_pos x.missing with hzero | hpos
      · exact ⟨.clientNext, trivial, clientNext_possible hc htook hzero⟩
      · rcases Nat.eq_zero_or_pos c.down.pending with hnone | hsome
        · exact server_possible h hfits hwrote htook hpos hnone
        · have hn : 0 < 1 ∧ 1 ≤ x.missing ∧ 1 ≤ c.down.pending := ⟨Nat.one_pos, hpos, hsome⟩
          exact ⟨.clientRead 1, trivial, by simp [step, hc, hn]⟩
  | returned q' result =>
      obtain rfl : q' = q := by simpa [hc, Client.request?] using hrequest
      cases result with
      | error e => exact absurd hc (h.client e)
      | ok v =>
          have hf := h.good.faithful hreq hresp
          obtain ⟨r', hanswers, rfl⟩ := hf.answered _ v hc
          obtain rfl : r' = r := h.answers _ (by rw [hanswers]; exact List.mem_singleton_self _)
          have hcalls : [q'] <+: c.calls := by simpa [hanswers] using hf.called
          exact absurd ⟨hc, (hcalls.eq_of_length_le hf.once).symm, hanswers⟩ hopen
  | stranger => simp [hc, Client.request?] at hrequest

theorem accepted_onCourse (q : Req) (r : Except String Resp) :
    OnCourse w q r (accepted (.serialising q)) where
  good := accepted_good (Or.inr ⟨q, rfl⟩)
  request := rfl
  client := by simp [accepted]
  server := by simp [accepted]
  alive := by simp [accepted]
  answers := by simp [accepted]

/-- From every state that a `SocketClient`'s connection reaches without a fault, its request
is answered. -/
theorem send_completes (hreq : w.request.Lawful) (hresp : w.response.Lawful)
    (hfits : Fits w q r there back) (h : (sends w q).Reach (Faultless r) c) :
    (sends w q).Inevitable (Faultless r) (Delivered w q r) c := by
  have hcourse : OnCourse w q r c := by
    refine h.invariant (fun c h0 => ?_) (fun c m c' h hm hs => h.next hfits hreq hresp hm hs)
    exact h0 ▸ accepted_onCourse q r
  refine .of_measure (I := OnCourse w q r) toGo
    (fun c m c' h hm hs => h.next hfits hreq hresp hm hs) (fun c h hopen => ?_)
    (fun c m c' h hm hs => toGo_lt (step_moved h hfits hreq hresp hm hs)) hcourse
  obtain ⟨m, hm, hs⟩ := h.possible hfits hreq hresp hopen
  obtain ⟨c', hs⟩ := Option.isSome_iff_exists.mp hs
  exact ⟨m, c', hm, hs⟩

theorem send_completes_stop :
    (sends stopWire none).Inevitable (Faultless (.ok none)) (Delivered stopWire none (.ok none))
      (accepted (.serialising none)) :=
  send_completes (oneText_lawful _) (oneText_lawful _)
    ⟨rfl, by decide +kernel, rfl, by decide +kernel⟩ (.init rfl)

end Filigrio.Socket
