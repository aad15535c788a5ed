import Filigrio.Lib.Frame
import Filigrio.Lib.Lts
import Filigrio.Lib.Utf8

/-!
# Filigrio.Protocol.Socket

One connection between a client and the daemon: `SocketClient::send` on one side, the
daemon's `handle_conn` (and the blocking `handle_connection`) on the other, and a byte
stream each way. Reads and writes move any number of bytes, in any order of the two
sides; every call can fail, the daemon can die, and the peer need not be a
`SocketClient` at all. How messages are put into bytes, and what the handler answers, are
parameters.
-/

open Frame

namespace Filigrio.Socket

/-- Maximum framed message size. -/
def maxFrame : ℕ := 10 * 1024 * 1024

/-- The protocol's `Error`. -/
inductive Error
  | socket (message : String)
  | serialization (message : String)
  deriving DecidableEq, Repr

/-- How messages are put into bytes and read back: `serde_json::to_vec`, `from_slice`. -/
structure Codec (α : Type*) where
  encode : α → Except String (List UInt8)
  decode : List UInt8 → Except String α

/-- A text reads back as what was written, and no text that ends early is read. -/
structure Codec.Lawful {α : Type*} (c : Codec α) : Prop where
  decode_encode : ∀ a body, c.encode a = .ok body → c.decode body = .ok a
  eq_of_prefix : ∀ a body part v, c.encode a = .ok body → part <+: body →
    c.decode part = .ok v → part = body

/-- The two message types: `Request`, and `Response` with its variant for errors. -/
structure Wire (Req Resp : Type*) where
  request : Codec Req
  response : Codec Resp
  error : String → Resp

variable {Req Resp : Type*} (w : Wire Req Resp)

/-- What goes back for what the handler returned: its error is a response too. -/
def Wire.reply : Except String Resp → Resp
  | .ok response => response
  | .error e => w.error e

/-- Where the connecting side stands. -/
inductive Client (Req Resp : Type*)
  | serialising (request : Req)
  /-- The two `write_all`s, of the length and of the body. -/
  | sending (request : Req) (left : List UInt8)
  | reading (request : Req) (r : Reader)
  | returned (request : Req) (result : Except Error Resp)
  /-- Anything else that connects to the socket. -/
  | stranger
  deriving DecidableEq

/-- Where the daemon's side stands. -/
inductive Server (Req : Type*)
  | reading (r : Reader)
  | handling (request : Req)
  | writing (left : List UInt8)
  | closed (result : Except Error Unit)
  /-- The daemon is gone. -/
  | crashed

/-- A connection: both streams and both sides, the requests the handler was called with
and what it returned for them. -/
structure Conn (Req Resp : Type*) where
  up : Pipe
  down : Pipe
  client : Client Req Resp
  server : Server Req
  calls : List Req
  answers : List (Req × Except String Resp)

inductive Move (Resp : Type*)
  | clientNext
  | clientWrite (n : ℕ)
  | clientRead (n : ℕ)
  | clientFail (e : String)
  /-- A stranger writes. -/
  | write (bytes : List UInt8)
  | serverNext
  | serverWrite (n : ℕ)
  | serverRead (n : ℕ)
  | serverFail (e : String)
  /-- The handler returns. -/
  | answer (r : Except String Resp)
  | crash

/-- `SocketClient::send`, between two calls that move bytes. -/
def clientNext (c : Conn Req Resp) : Option (Conn Req Resp) :=
  match c.client with
  | .serialising q =>
    match w.request.encode q with
    | .ok body => some { c with client := .sending q (framed body) }
    | .error e => some { c with client := .returned q (.error (.serialization e)) }
  | .sending q [] => some { c with client := .reading q .start }
  | .reading q (.length got) =>
    if got.length = 4 then some { c with client := .reading q (.body (ofBe32 got) []) } else none
  | .reading q (.body len got) =>
    if got.length = len then
      match w.response.decode got with
      | .ok v => some { c with client := .returned q (.ok v) }
      | .error e => some { c with client := .returned q (.error (.serialization e)) }
    else none
  | _ => none

/-- `handle_conn` and `read_request`, between two calls that move bytes. The length is
judged before any of the body is read. -/
def serverNext (c : Conn Req Resp) : Option (Conn Req Resp) :=
  match c.server with
  | .reading (.length got) =>
    if got.length = 4 then
      if ofBe32 got > maxFrame then
        some { c with
          server := .closed (.error (.socket s!"request too large: {ofBe32 got} bytes")) }
      else some { c with server := .reading (.body (ofBe32 got) []) }
    else none
  | .reading (.body len got) =>
    if got.length = len then
      match w.request.decode got with
      | .ok q => some { c with server := .handling q, calls := c.calls ++ [q] }
      | .error e =>
        some { c with server := .closed (.error (.serialization s!"deserialize failed: {e}")) }
    else none
  | .writing [] => some { c with server := .closed (.ok ()) }
  | _ => none

/-- What the client's failing call is reported as. -/
def clientFail (e : String) : Client Req Resp → Option (Client Req Resp)
  | .serialising q => some (.returned q (.error (.socket s!"connect failed: {e}")))
  | .sending q _ => some (.returned q (.error (.socket s!"write failed: {e}")))
  | .reading q _ => some (.returned q (.error (.socket s!"read failed: {e}")))
  | _ => none

/-- What the daemon's failing call is reported as. -/
def serverFail (e : String) : Server Req → Option (Server Req)
  | .reading (.length _) => some (.closed (.error (.socket s!"read length failed: {e}")))
  | .reading (.body _ _) => some (.closed (.error (.socket s!"read request failed: {e}")))
  | .writing _ => some (.closed (.error (.socket s!"write response failed: {e}")))
  | _ => none

/-- What each move does. -/
def step (c : Conn Req Resp) : Move Resp → Option (Conn Req Resp)
  | .clientNext => clientNext w c
  | .clientWrite n =>
    match c.client with
    | .sending q left =>
      if 0 < n ∧ n ≤ left.length then
        some { c with up := c.up.write (left.take n), client := .sending q (left.drop n) }
      else none
    | _ => none
  | .clientRead n =>
    match c.client with
    | .reading q r =>
      if 0 < n ∧ n ≤ r.missing ∧ n ≤ c.down.pending then
        some { c with down := c.down.skip n, client := .reading q (r.feed (c.down.next n)) }
      else none
    | _ => none
  | .clientFail e => (clientFail e c.client).map fun client => { c with client }
  | .write bytes =>
    match c.client with
    | .stranger => some { c with up := c.up.write bytes }
    | _ => none
  | .serverNext => serverNext w c
  | .serverWrite n =>
    match c.server with
    | .writing left =>
      if 0 < n ∧ n ≤ left.length then
        some { c with down := c.down.write (left.take n), server := .writing (left.drop n) }
      else none
    | _ => none
  | .serverRead n =>
    match c.server with
    | .reading r =>
      if 0 < n ∧ n ≤ r.missing ∧ n ≤ c.up.pending then
        some { c with up := c.up.skip n, server := .reading (r.feed (c.up.next n)) }
      else none
    | _ => none
  | .serverFail e => (serverFail e c.server).map fun server => { c with server }
  | .answer r =>
    match c.server with
    | .handling q =>
      match w.response.encode (w.reply r) with
      | .ok body =>
        some { c with server := .writing (framed body), answers := c.answers ++ [(q, r)] }
      | .error e =>
        some { c with
          server := .closed (.error (.serialization s!"serialize failed: {e}"))
          answers := c.answers ++ [(q, r)] }
    | _ => none
  | .crash => some { c with server := .crashed }

/-- A connection just accepted. -/
def accepted (client : Client Req Resp) : Conn Req Resp :=
  ⟨.empty, .empty, client, .reading .start, [], []⟩

/-- A connection that a `SocketClient` opened to send this request. -/
def sends (q : Req) : Lts (Conn Req Resp) (Move Resp) where
  init c := c = accepted (.serialising q)
  step := step w

/-- A connection of any peer. -/
def connection : Lts (Conn Req Resp) (Move Resp) where
  init c := c = accepted .stranger ∨ ∃ q, c = accepted (.serialising q)
  step := step w

/-! ### What the two sides know -/

/-- A whole request of an admissible size stands at the front of the bytes. -/
def Received (bytes : List UInt8) (q : Req) : Prop :=
  ∃ body, Starts bytes body ∧ body.length ≤ maxFrame ∧ w.request.decode body = .ok q

theorem Received.mono {bytes bytes' : List UInt8} {q : Req} (h : Received w bytes q)
    (hle : bytes <+: bytes') : Received w bytes' q := by
  obtain ⟨body, hstarts, hlen, hq⟩ := h
  exact ⟨body, hstarts.mono hle, hlen, hq⟩

/-- The bytes are the start of the frame of a message, if it has one. -/
def Opens {α : Type*} (codec : Codec α) (a : α) (bytes : List UInt8) : Prop :=
  bytes = [] ∨ ∃ body, codec.encode a = .ok body ∧ bytes <+: framed body

/-- What the handler was called with and returned, and what went down the stream for it. -/
inductive Served (c : Conn Req Resp) : Prop
  | unasked (hcalls : c.calls = []) (hanswers : c.answers = []) (hdown : c.down.wrote = [])
  | called (q : Req) (hq : Received w c.up.wrote q) (hcalls : c.calls = [q])
      (hanswers : c.answers = []) (hdown : c.down.wrote = [])
  | answered (q : Req) (r : Except String Resp) (hq : Received w c.up.wrote q)
      (hcalls : c.calls = [q]) (hanswers : c.answers = [(q, r)])
      (hdown : Opens w.response (w.reply r) c.down.wrote)

/-- Where the daemon's side stands, in terms of the streams. -/
def ServerAt (c : Conn Req Resp) : Server Req → Prop
  | .reading r => r.Took c.up.taken ∧ (∀ len got, r = .body len got → len ≤ maxFrame) ∧
      c.calls = [] ∧ c.answers = [] ∧ c.down.wrote = []
  | .handling q => Received w c.up.wrote q ∧ c.calls = [q] ∧ c.answers = [] ∧ c.down.wrote = []
  | .writing left => ∃ q r body, Received w c.up.wrote q ∧ c.calls = [q] ∧
      c.answers = [(q, r)] ∧ w.response.encode (w.reply r) = .ok body ∧
      c.down.wrote ++ left = framed body
  | .closed (.ok _) => ∃ q r body, Received w c.up.wrote q ∧ c.calls = [q] ∧
      c.answers = [(q, r)] ∧ w.response.encode (w.reply r) = .ok body ∧ c.down.wrote = framed body
  | .closed (.error _) => Served w c
  | .crashed => Served w c

/-- Where the connecting side stands, in terms of the streams. -/
def ClientAt (c : Conn Req Resp) : Client Req Resp → Prop
  | .serialising _ => c.up.wrote = [] ∧ c.down.taken = []
  | .sending q left => c.down.taken = [] ∧
      ∃ body, w.request.encode q = .ok body ∧ c.up.wrote ++ left = framed body
  | .reading q r => r.Took c.down.taken ∧
      ∃ body, w.request.encode q = .ok body ∧ c.up.wrote = framed body
  | .returned q (.ok v) => (∃ body, Starts c.down.wrote body ∧ w.response.decode body = .ok v) ∧
      ∃ body, w.request.encode q = .ok body ∧ c.up.wrote = framed body
  | .returned q (.error _) => Opens w.request q c.up.wrote
  | .stranger => True

/-- What holds of every connection. -/
structure Good (c : Conn Req Resp) : Prop where
  up : c.up.read ≤ c.up.wrote.length
  down : c.down.read ≤ c.down.wrote.length
  client : ClientAt w c c.client
  server : ServerAt w c c.server

variable {w} {c c' : Conn Req Resp} {q : Req}

theorem Opens.of_eq {α : Type*} {codec : Codec α} {a : α} {body bytes left : List UInt8}
    (hbody : codec.encode a = .ok body) (h : bytes ++ left = framed body) :
    Opens codec a bytes :=
  Or.inr ⟨body, hbody, left, h⟩

theorem Opens.of_whole {α : Type*} {codec : Codec α} {a : α} {body bytes : List UInt8}
    (hbody : codec.encode a = .ok body) (h : bytes = framed body) : Opens codec a bytes :=
  Or.inr ⟨body, hbody, h ▸ List.prefix_rfl⟩

/-! #### A move of one side leaves the other where it is -/

theorem Served.frame (h : Served w c) (hcalls : c'.calls = c.calls)
    (hanswers : c'.answers = c.answers) (hdown : c'.down.wrote = c.down.wrote)
    (hup : c.up.wrote <+: c'.up.wrote) : Served w c' := by
  cases h with
  | unasked h1 h2 h3 => exact .unasked (hcalls ▸ h1) (hanswers ▸ h2) (hdown ▸ h3)
  | called q hq h1 h2 h3 =>
      exact .called q (hq.mono w hup) (hcalls ▸ h1) (hanswers ▸ h2) (hdown ▸ h3)
  | answered q r hq h1 h2 h3 =>
      exact .answered q r (hq.mono w hup) (hcalls ▸ h1) (hanswers ▸ h2) (hdown ▸ h3)

theorem ServerAt.frame {s : Server Req} (h : ServerAt w c s) (hcalls : c'.calls = c.calls)
    (hanswers : c'.answers = c.answers) (hdown : c'.down.wrote = c.down.wrote)
    (htaken : c'.up.taken = c.up.taken) (hup : c.up.wrote <+: c'.up.wrote) : ServerAt w c' s := by
  cases s with
  | reading r =>
      obtain ⟨htook, hlen, h1, h2, h3⟩ := h
      exact ⟨htaken ▸ htook, hlen, hcalls ▸ h1, hanswers ▸ h2, hdown ▸ h3⟩
  | handling q =>
      obtain ⟨hq, h1, h2, h3⟩ := h
      exact ⟨hq.mono w hup, hcalls ▸ h1, hanswers ▸ h2, hdown ▸ h3⟩
  | writing left =>
      obtain ⟨q, r, body, hq, h1, h2, hbody, h3⟩ := h
      exact ⟨q, r, body, hq.mono w hup, hcalls ▸ h1, hanswers ▸ h2, hbody, hdown ▸ h3⟩
  | closed result =>
      cases result with
      | ok u =>
          obtain ⟨q, r, body, hq, h1, h2, hbody, h3⟩ := h
          exact ⟨q, r, body, hq.mono w hup, hcalls ▸ h1, hanswers ▸ h2, hbody, hdown ▸ h3⟩
      | error e => exact Served.frame h hcalls hanswers hdown hup
  | crashed => exact Served.frame h hcalls hanswers hdown hup

theorem ClientAt.frame {s : Client Req Resp} (h : ClientAt w c s)
    (hup : c'.up.wrote = c.up.wrote) (htaken : c'.down.taken = c.down.taken)
    (hdown : c.down.wrote <+: c'.down.wrote) : ClientAt w c' s := by
  cases s with
  | serialising q => exact ⟨hup ▸ h.1, htaken ▸ h.2⟩
  | sending q left => exact ⟨htaken ▸ h.1, hup ▸ h.2⟩
  | reading q r => exact ⟨htaken ▸ h.1, hup ▸ h.2⟩
  | returned q result =>
      cases result with
      | ok v =>
          obtain ⟨⟨body, hstarts, hv⟩, hsent⟩ := h
          exact ⟨⟨body, hstarts.mono hdown, hv⟩, hup ▸ hsent⟩
      | error e =>
          show Opens w.request q c'.up.wrote
          rw [hup]
          exact h
  | stranger => trivial

/-! #### Where each side can stop -/

theorem ServerAt.served {s : Server Req} (h : ServerAt w c s) : Served w c := by
  cases s with
  | reading r => exact .unasked h.2.2.1 h.2.2.2.1 h.2.2.2.2
  | handling q => exact .called q h.1 h.2.1 h.2.2.1 h.2.2.2
  | writing left =>
      obtain ⟨q, r, body, hq, h1, h2, hbody, h3⟩ := h
      exact .answered q r hq h1 h2 (.of_eq hbody h3)
  | closed result =>
      cases result with
      | ok u =>
          obtain ⟨q, r, body, hq, h1, h2, hbody, h3⟩ := h
          exact .answered q r hq h1 h2 (.of_whole hbody h3)
      | error e => exact h
  | crashed => exact h

/-- The request that a `SocketClient` was opened for. -/
def Client.request? : Client Req Resp → Option Req
  | serialising q | sending q _ | reading q _ | returned q _ => some q
  | stranger => none

theorem ClientAt.opens {s : Client Req Resp} (h : ClientAt w c s) (hq : s.request? = some q) :
    Opens w.request q c.up.wrote := by
  cases s with
  | serialising q' =>
      cases hq
      exact Or.inl h.1
  | sending q' left =>
      cases hq
      obtain ⟨-, body, hbody, hleft⟩ := h
      exact .of_eq hbody hleft
  | reading q' r =>
      cases hq
      obtain ⟨-, body, hbody, hwrote⟩ := h
      exact .of_whole hbody hwrote
  | returned q' result =>
      cases hq
      cases result with
      | ok v =>
          obtain ⟨-, body, hbody, hwrote⟩ := h
          exact .of_whole hbody hwrote
      | error e => exact h
  | stranger => cases hq

/-! #### One move at a time -/

theorem clientNext_good (h : Good w c) (hs : clientNext w c = some c') : Good w c' := by
  obtain ⟨hup, hdown, hclient, hserver⟩ := h
  unfold clientNext at hs
  split at hs
  · rename_i q hc
    rw [hc] at hclient
    obtain ⟨hwrote, htaken⟩ := hclient
    split at hs
    · rename_i body hbody
      cases hs
      exact ⟨hup, hdown, ⟨htaken, body, hbody, by simp [hwrote]⟩, hserver.frame rfl rfl rfl rfl
        List.prefix_rfl⟩
    · cases hs
      exact ⟨hup, hdown, Or.inl hwrote, hserver.frame rfl rfl rfl rfl List.prefix_rfl⟩
  · rename_i q hc
    rw [hc] at hclient
    obtain ⟨htaken, body, hbody, hwrote⟩ := hclient
    cases hs
    refine ⟨hup, hdown, ⟨?_, body, hbody, by simpa using hwrote⟩, hserver.frame rfl rfl rfl rfl
      List.prefix_rfl⟩
    show Reader.start.Took c.down.taken
    rw [htaken]
    exact Reader.took_start
  · rename_i q got hc
    rw [hc] at hclient
    split at hs
    · rename_i hgot
      cases hs
      exact ⟨hup, hdown, ⟨hclient.1.advance hgot, hclient.2⟩, hserver.frame rfl rfl rfl rfl
        List.prefix_rfl⟩
    · cases hs
  · rename_i q len got hc
    rw [hc] at hclient
    obtain ⟨htook, body, hbody, hwrote⟩ := hclient
    split at hs
    · rename_i hgot
      split at hs
      · rename_i v hv
        cases hs
        exact ⟨hup, hdown, ⟨⟨got, htook.starts hgot, hv⟩, body, hbody, hwrote⟩,
          hserver.frame rfl rfl rfl rfl List.prefix_rfl⟩
      · cases hs
        exact ⟨hup, hdown, Opens.of_whole hbody hwrote, hserver.frame rfl rfl rfl rfl
          List.prefix_rfl⟩
    · cases hs
  · cases hs

theorem serverNext_good (h : Good w c) (hs : serverNext w c = some c') : Good w c' := by
  obtain ⟨hup, hdown, hclient, hserver⟩ := h
  unfold serverNext at hs
  split at hs
  · rename_i got hc
    rw [hc] at hserver
    obtain ⟨htook, -, hcalls, hanswers, hwrote⟩ := hserver
    split at hs
    · rename_i hgot
      split at hs
      · cases hs
        exact ⟨hup, hdown, hclient.frame rfl rfl List.prefix_rfl, .unasked hcalls hanswers hwrote⟩
      · rename_i hlen
        cases hs
        refine ⟨hup, hdown, hclient.frame rfl rfl List.prefix_rfl, htook.advance hgot, ?_, hcalls,
          hanswers, hwrote⟩
        intro len got' heq
        cases heq
        exact Nat.le_of_not_gt hlen
    · cases hs
  · rename_i len got hc
    rw [hc] at hserver
    obtain ⟨htook, hmax, hcalls, hanswers, hwrote⟩ := hserver
    split at hs
    · rename_i hgot
      split at hs
      · rename_i q hq
        cases hs
        refine ⟨hup, hdown, hclient.frame rfl rfl List.prefix_rfl, ⟨got, htook.starts hgot, ?_, hq⟩,
          by simp [hcalls], hanswers, hwrote⟩
        exact hgot ▸ hmax len got rfl
      · cases hs
        exact ⟨hup, hdown, hclient.frame rfl rfl List.prefix_rfl, .unasked hcalls hanswers hwrote⟩
    · cases hs
  · rename_i hc
    rw [hc] at hserver
    obtain ⟨q, r, body, hq, hcalls, hanswers, hbody, hwrote⟩ := hserver
    cases hs
    exact ⟨hup, hdown, hclient.frame rfl rfl List.prefix_rfl, q, r, body, hq, hcalls, hanswers,
      hbody, by simpa using hwrote⟩
  · cases hs

/-- Every move of either side keeps the streams and the two sides in step. -/
theorem step_good {m : Move Resp} (h : Good w c) (hs : step w c m = some c') : Good w c' := by
  cases m with
  | clientNext => exact clientNext_good h hs
  | clientWrite n =>
      obtain ⟨hup, hdown, hclient, hserver⟩ := h
      simp only [step] at hs
      split at hs
      · rename_i q left hc
        rw [hc] at hclient
        obtain ⟨htaken, body, hbody, hwrote⟩ := hclient
        split at hs
        · rename_i hn
          cases hs
          refine ⟨?_, hdown, ⟨htaken, body, hbody, ?_⟩,
            hserver.frame rfl rfl rfl (Pipe.taken_write _ _ hup) (List.prefix_append _ _)⟩
          · simp only [Pipe.read_write, Pipe.wrote_write, List.length_append]
            omega
          · rw [Pipe.wrote_write, List.append_assoc, List.take_append_drop, hwrote]
        · cases hs
      · cases hs
  | clientRead n =>
      obtain ⟨hup, hdown, hclient, hserver⟩ := h
      simp only [step] at hs
      split at hs
      · rename_i q r hc
        rw [hc] at hclient
        split at hs
        · rename_i hn
          obtain ⟨hpos, hmissing, hpending⟩ := hn
          cases hs
          refine ⟨hup, ?_, ⟨?_, hclient.2⟩, hserver.frame rfl rfl rfl rfl List.prefix_rfl⟩
          · simp only [Pipe.pending] at hpending
            simp only [Pipe.skip]
            omega
          · rw [Pipe.taken_skip]
            exact hclient.1.feed (by rw [Pipe.length_next _ hpending]; exact hmissing)
        · cases hs
      · cases hs
  | clientFail e =>
      obtain ⟨hup, hdown, hclient, hserver⟩ := h
      obtain ⟨client, hfail, rfl⟩ := Option.map_eq_some_iff.mp hs
      refine ⟨hup, hdown, ?_, hserver.frame rfl rfl rfl rfl List.prefix_rfl⟩
      cases hc : c.client <;> simp only [hc, clientFail, Option.some.injEq, reduceCtorEq] at hfail
      all_goals
        subst hfail
        exact hclient.opens (by rw [hc]; rfl)
  | write bytes =>
      obtain ⟨hup, hdown, hclient, hserver⟩ := h
      simp only [step] at hs
      split at hs
      · rename_i hc
        cases hs
        refine ⟨?_, hdown, ?_,
          hserver.frame rfl rfl rfl (Pipe.taken_write _ _ hup) (List.prefix_append _ _)⟩
        · simp only [Pipe.read_write, Pipe.wrote_write, List.length_append]
          omega
        · rw [show ({ c with up := c.up.write bytes } : Conn Req Resp).client = .stranger from hc]
          trivial
      · cases hs
  | serverNext => exact serverNext_good h hs
  | serverWrite n =>
      obtain ⟨hup, hdown, hclient, hserver⟩ := h
      simp only [step] at hs
      split at hs
      · rename_i left hc
        rw [hc] at hserver
        obtain ⟨q, r, body, hq, hcalls, hanswers, hbody, hwrote⟩ := hserver
        split at hs
        · rename_i hn
          cases hs
          refine ⟨hup, ?_, hclient.frame rfl (Pipe.taken_write _ _ hdown) (List.prefix_append _ _),
            q, r, body, hq, hcalls, hanswers, hbody, ?_⟩
          · simp only [Pipe.read_write, Pipe.wrote_write, List.length_append]
            omega
          · rw [Pipe.wrote_write, List.append_assoc, List.take_append_drop, hwrote]
        · cases hs
      · cases hs
  | serverRead n =>
      obtain ⟨hup, hdown, hclient, hserver⟩ := h
      simp only [step] at hs
      split at hs
      · rename_i r hc
        rw [hc] at hserver
        obtain ⟨htook, hmax, hcalls, hanswers, hwrote⟩ := hserver
        split at hs
        · rename_i hn
          obtain ⟨hpos, hmissing, hpending⟩ := hn
          cases hs
          refine ⟨?_, hdown, hclient.frame rfl rfl List.prefix_rfl, ?_, ?_, hcalls, hanswers, hwrote⟩
          · simp only [Pipe.pending] at hpending
            simp only [Pipe.skip]
            omega
          · rw [Pipe.taken_skip]
            exact htook.feed (by rw [Pipe.length_next _ hpending]; exact hmissing)
          · intro len got heq
            cases r with
            | length got' => cases heq
            | body len' got' =>
                cases heq
                exact hmax _ got' rfl
        · cases hs
      · cases hs
  | serverFail e =>
      obtain ⟨hup, hdown, hclient, hserver⟩ := h
      obtain ⟨server, hfail, rfl⟩ := Option.map_eq_some_iff.mp hs
      refine ⟨hup, hdown, hclient.frame rfl rfl List.prefix_rfl, ?_⟩
      have hserved : Served w { c with server } :=
        hserver.served.frame rfl rfl rfl List.prefix_rfl
      cases hc : c.server with
      | reading r =>
          cases r <;>
          · simp only [hc, serverFail, Option.some.injEq] at hfail
            subst hfail
            exact hserved
      | writing left =>
          simp only [hc, serverFail, Option.some.injEq] at hfail
          subst hfail
          exact hserved
      | handling q => simp [hc, serverFail] at hfail
      | closed result => simp [hc, serverFail] at hfail
      | crashed => simp [hc, serverFail] at hfail
  | answer r =>
      obtain ⟨hup, hdown, hclient, hserver⟩ := h
      simp only [step] at hs
      split at hs
      · rename_i q hc
        rw [hc] at hserver
        obtain ⟨hq, hcalls, hanswers, hwrote⟩ := hserver
        split at hs
        · rename_i body hbody
          cases hs
          exact ⟨hup, hdown, hclient.frame rfl rfl List.prefix_rfl, q, r, body, hq, hcalls,
            by simp [hanswers], hbody, by simp [hwrote]⟩
        · cases hs
          exact ⟨hup, hdown, hclient.frame rfl rfl List.prefix_rfl,
            .answered q r hq hcalls (by simp [hanswers]) (Or.inl hwrote)⟩
      · cases hs
  | crash =>
      obtain ⟨hup, hdown, hclient, hserver⟩ := h
      cases hs
      exact ⟨hup, hdown, hclient.frame rfl rfl List.prefix_rfl,
        hserver.served.frame rfl rfl rfl List.prefix_rfl⟩

theorem accepted_good {client : Client Req Resp}
    (hc : client = .stranger ∨ ∃ q, client = .serialising q) : Good w (accepted client) := by
  refine ⟨Nat.le_refl _, Nat.le_refl _, ?_, Reader.took_start, by simp [Reader.start], rfl, rfl, rfl⟩
  rcases hc with rfl | ⟨q, rfl⟩
  · trivial
  · exact ⟨rfl, rfl⟩

/-- Everything reached on a connection is. -/
theorem reach_good (h : (connection w).Reach Lts.anyStep c) : Good w c := by
  refine h.invariant (fun c h0 => ?_) (fun c m c' h _ hs => step_good h hs)
  rcases h0 with rfl | ⟨q, rfl⟩
  · exact accepted_good (Or.inl rfl)
  · exact accepted_good (Or.inr ⟨q, rfl⟩)

/-! ### An answer is the answer to the question -/

/-- A frame that starts with what is read as a message is that message's own. -/
theorem Opens.message {α : Type*} {codec : Codec α} {a v : α} {bytes body : List UInt8}
    (hcodec : codec.Lawful) (h : Opens codec a bytes) (hstarts : Starts bytes body)
    (hv : codec.decode body = .ok v) : codec.encode a = .ok body ∧ v = a := by
  obtain ⟨head, hhead, hbody, hpre⟩ := hstarts
  rcases h with rfl | ⟨whole, hwhole, hopens⟩
  · cases head <;> simp_all
  · obtain ⟨hstart, -⟩ := body_of_framed hhead hbody (hpre.trans hopens)
    obtain rfl := hcodec.eq_of_prefix a whole body v hwhole hstart hv
    rw [hcodec.decode_encode a body hwhole] at hv
    exact ⟨hwhole, (Except.ok.inj hv).symm⟩

variable (w) in
/-- The handler is called at most once, with a whole request of an admissible size that
the peer wrote; for a `SocketClient` with the request it was asked to send, and what it
returns as a response is what the handler returned for that request. -/
structure Faithful (c : Conn Req Resp) : Prop where
  once : c.calls.length ≤ 1
  called : c.answers.map Prod.fst <+: c.calls
  received : ∀ q ∈ c.calls, Received w c.up.wrote q
  asked : ∀ q, c.client.request? = some q → ∀ q' ∈ c.calls, q' = q ∧
    ∃ body, w.request.encode q = .ok body ∧ body.length ≤ maxFrame
  answered : ∀ q v, c.client = .returned q (.ok v) → ∃ r, c.answers = [(q, r)] ∧ v = w.reply r

theorem Served.asked (hreq : w.request.Lawful) (h : Good w c) (hq : c.client.request? = some q)
    {q' : Req} (hq' : Received w c.up.wrote q') :
    q' = q ∧ ∃ body, w.request.encode q = .ok body ∧ body.length ≤ maxFrame := by
  obtain ⟨body, hstarts, hlen, hdecode⟩ := hq'
  obtain ⟨hbody, rfl⟩ := (h.client.opens hq).message hreq hstarts hdecode
  exact ⟨rfl, body, hbody, hlen⟩

theorem Good.faithful (hreq : w.request.Lawful) (hresp : w.response.Lawful) (h : Good w c) :
    Faithful w c where
  once := by
    cases h.server.served with
    | unasked hcalls => simp [hcalls]
    | called q hq hcalls => simp [hcalls]
    | answered q r hq hcalls => simp [hcalls]
  called := by
    cases h.server.served with
    | unasked hcalls hanswers => simp [hanswers]
    | called q hq hcalls hanswers => simp [hanswers]
    | answered q r hq hcalls hanswers => simp [hcalls, hanswers]
  received := by
    intro q' hq'
    cases h.server.served with
    | unasked hcalls => simp [hcalls] at hq'
    | called p hp hcalls =>
        obtain rfl : q' = p := by simpa [hcalls] using hq'
        exact hp
    | answered p r hp hcalls =>
        obtain rfl : q' = p := by simpa [hcalls] using hq'
        exact hp
  asked := by
    intro q hc q' hq'
    cases h.server.served with
    | unasked hcalls => simp [hcalls] at hq'
    | called p hp hcalls =>
        obtain rfl : q' = p := by simpa [hcalls] using hq'
        exact Served.asked hreq h hc hp
    | answered p r hp hcalls =>
        obtain rfl : q' = p := by simpa [hcalls] using hq'
        exact Served.asked hreq h hc hp
  answered := by
    intro q v hc
    have hclient : ClientAt w c (.returned q (.ok v)) := hc ▸ h.client
    obtain ⟨⟨body, hstarts, hv⟩, -⟩ := hclient
    have hwrote : c.down.wrote ≠ [] := by
      obtain ⟨head, hhead, -, hpre⟩ := hstarts
      rintro hnil
      rw [hnil, List.prefix_nil] at hpre
      cases head <;> simp_all
    cases h.server.served with
    | unasked _ _ hdown => exact absurd hdown hwrote
    | called p _ _ _ hdown => exact absurd hdown hwrote
    | answered p r hp hcalls hanswers hdown =>
        obtain ⟨-, rfl⟩ := hdown.message hresp hstarts hv
        obtain ⟨rfl, -⟩ := Served.asked hreq h (by rw [hc]; rfl) hp
        exact ⟨r, hanswers, rfl⟩

/-- Whatever the two sides do, and wherever either fails. -/
theorem send_faithful (hreq : w.request.Lawful) (hresp : w.response.Lawful)
    (h : (connection w).Reach Lts.anyStep c) : Faithful w c :=
  (reach_good h).faithful hreq hresp

/-! ### Stopping the daemon -/

/-- One message has this text, and the others none. -/
def oneText (text : List UInt8) : Codec (Option String) where
  encode
    | none => .ok text
    | some e => .error e
  decode bytes := if bytes = text then .ok none else .error "expected value"

theorem oneText_lawful (text : List UInt8) : (oneText text).Lawful where
  decode_encode a body h := by
    cases a with
    | none =>
        cases h
        simp [oneText]
    | some e => cases h
  eq_of_prefix a body part v h _ hv := by
    cases a with
    | none =>
        cases h
        simp only [oneText] at hv
        split at hv
        · assumption
        · cases hv
    | some e => cases h

/-- `DaemonStop`, and `CommandCompleted` with `Stopping`. -/
def stopWire : Wire (Option String) (Option String) where
  request := oneText (Utf8.encode "\x7b\"type\":\"Command\",\"kind\":\"DaemonStop\"\x7d")
  response := oneText
    (Utf8.encode "\x7b\"type\":\"CommandCompleted\",\"outcome\":\x7b\"kind\":\"Stopping\"\x7d\x7d")
  error := some

/-- The whole exchange, in as few chunks as the two sides take. -/
def stopMoves : List (Move (Option String)) :=
  [.clientNext, .clientWrite 42, .clientNext, .serverRead 4, .serverNext, .serverRead 38,
    .serverNext, .answer (.ok none), .serverWrite 61, .clientRead 4, .clientNext, .clientRead 57,
    .clientNext]

theorem send_faithful_stop :
    ∃ c, Faithful stopWire c ∧ c.client = .returned none (.ok none) := by
  have hrun : ((connection stopWire).run (accepted (.serialising none)) stopMoves).any
      (fun c => c.client = .returned none (.ok none)) := by
    decide +kernel
  obtain ⟨c, hc, hclient⟩ := (Option.any_eq_true _ _).mp hrun
  refine ⟨c, ?_, of_decide_eq_true hclient⟩
  exact send_faithful (oneText_lawful _) (oneText_lawful _)
    (.run (.init (Or.inr ⟨none, rfl⟩)) (fun _ _ _ => trivial) hc)

end Filigrio.Socket
