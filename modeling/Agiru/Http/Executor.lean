import Agiru.Library.Bytes
import Agiru.Library.Undo

/-! The HTTP server: requests, the library's callbacks, the workers, and the drain.

A request is filled by the library's calls: its target, its headers, its body a piece at a time. What is not within the
limits leaves a refusal, which is then the response. `Append` charges a piece against the body's limit and against that
of all bodies together.

The library calls `Begin`, `Access` and `Complete` one at a time, for any number of requests; `Access` queues a
request whose body has ended and suspends it, and a worker takes it, hands it to the handler, makes it ready and
resumes it. The library leaves a suspended request alone, and closes one for which `Access` returns `MHD_NO`. -/
namespace Agiru.Http
open Bytes

/-! ### Limits -/

abbrev targetBytes : Nat := 8192
abbrev headerBytes : Nat := 32768
abbrev headerCount : Nat := 64
abbrev maxWorkers : Nat := 256
abbrev maxQueue : Nat := 4096
abbrev maxTimeoutSeconds : Nat := 120
abbrev maxBodyBytes : Nat := 16777216
abbrev minResponseBytes : Nat := 128
abbrev contentTypeBytes : Nat := 128
abbrev lastResponseStatus : Nat := 599

structure HttpServerOptions where
  workers : Nat
  queue : Nat
  connections : Nat
  timeoutSeconds : Nat
  bodyBytes : Nat
  totalBodyBytes : Nat
  responseBytes : Nat

/-- `ValidOptions`. -/
def HttpServerOptions.valid (options : HttpServerOptions) : Bool :=
  0 < options.workers && options.workers ≤ maxWorkers && 0 < options.queue && options.queue ≤ maxQueue &&
    0 < options.connections && 0 < options.timeoutSeconds && options.timeoutSeconds ≤ maxTimeoutSeconds &&
    0 < options.bodyBytes && options.bodyBytes ≤ maxBodyBytes && options.bodyBytes ≤ options.totalBodyBytes &&
    minResponseBytes ≤ options.responseBytes && options.responseBytes ≤ maxBodyBytes

theorem HttpServerOptions.workers_pos {options : HttpServerOptions} (h : options.valid = true) :
    0 < options.workers := by
  simp only [HttpServerOptions.valid, Bool.and_eq_true, decide_eq_true_eq] at h
  obtain ⟨⟨⟨⟨⟨⟨⟨⟨⟨⟨⟨hpos, -⟩, -⟩, -⟩, -⟩, -⟩, -⟩, -⟩, -⟩, -⟩, -⟩, -⟩ := h
  exact hpos

/-- A difference of sizes, of 64 bits: it wraps below zero. -/
def minus (a b : Nat) : Nat := if b ≤ a then a - b else 2 ^ 64 - (b - a)

theorem minus_eq {a b : Nat} (h : b ≤ a) : minus a b = a - b := if_pos h

/-! ### Texts of headers -/

structure Header where
  name : Bytes
  value : Bytes
  deriving DecidableEq

/-- `HeaderText`. -/
def headerText (value : Bytes) : Bool :=
  value ≠ [] && value.length ≤ headerBytes && value.all fun c => c = Ch.tab || (Ch.blank ≤ c && c ≠ 127)

/-- `HeaderName`. -/
def headerName (value : Bytes) : Bool :=
  value ≠ [] && value.all fun c => (97 ≤ c && c ≤ 122) || (65 ≤ c && c ≤ 90) || isDigit c ||
    c ∈ ascii "!#$%&'*+-.^_`|~"

/-! ### Requests and responses -/

structure ServerHttpRequest where
  method : Bytes := []
  target : Bytes := []
  headers : List Header := []
  body : Bytes := []
  deriving DecidableEq

structure ServerHttpResponse where
  status : Nat := 200
  contentType : Bytes := []
  body : Bytes := []
  headers : List Header := []
  deriving DecidableEq

/-- `Refusal`. -/
def refusal (status : Nat) (code : Bytes) : ServerHttpResponse :=
  {status := status, contentType := ascii "text/plain; charset=utf-8", body := code}

inductive Phase
  | receiving | queued | ready | sent
  deriving DecidableEq

structure Request where
  input : ServerHttpRequest := {}
  output : ServerHttpResponse := {}
  headerBytes : Nat := 0
  refusal : Nat := 0
  phase : Phase := .receiving
  deriving DecidableEq

/-- `Begin`. -/
def begun (target : Bytes) : Request :=
  if targetBytes < target.length then {refusal := 414} else {input := {target}}

/-- A header that the library shows, and whether memory runs out at it. -/
structure Shown where
  name : Bytes
  value : Bytes
  failed : Bool := false

/-- `Headers`, which is shown no further header once it has refused one. -/
def readHeaders (request : Request) : List Shown → Request
  | [] => request
  | ⟨name, value, failed⟩ :: rest =>
    if headerCount ≤ request.input.headers.length ||
        minus headerBytes request.headerBytes < name.length + value.length || !headerName name ||
        (value ≠ [] && !headerText value) then
      {request with refusal := 431}
    else if request.input.headers.any fun header => sameText header.name name then {request with refusal := 400}
    else if failed then
      {request with headerBytes := request.headerBytes + (name.length + value.length), refusal := 500}
    else
      readHeaders {request with
        headerBytes := request.headerBytes + (name.length + value.length)
        input := {request.input with headers := request.input.headers ++ [⟨name, value⟩]} } rest

/-- What `Append` does with a piece, with what is then charged for all bodies. -/
inductive Appended
  | refused
  | raised (bodyBytes : Nat)
  | stored (bodyBytes : Nat) (body : Bytes)

/-- `Append`, to a body; `failed` says that memory runs out at the piece. -/
def append (options : HttpServerOptions) (bodyBytes : Nat) (body bytes : Bytes) (failed : Bool) : Appended :=
  if minus options.bodyBytes body.length < bytes.length then .refused
  else if minus options.totalBodyBytes bodyBytes < bytes.length then .refused
  else if failed then .raised (minus (bodyBytes + bytes.length) bytes.length)
  else .stored (bodyBytes + bytes.length) (body ++ bytes)

/-- The headers of a response that the server adds itself, or that are not within the limits. -/
def headersRefused (taken : Nat) : List Header → Bool
  | [] => false
  | ⟨name, value⟩ :: rest =>
    !headerName name || (value ≠ [] && !headerText value) ||
      minus headerBytes taken < name.length + value.length || sameText name (ascii "Content-Length") ||
      sameText name (ascii "Transfer-Encoding") || sameText name (ascii "Content-Type") ||
      headersRefused (taken + (name.length + value.length)) rest

/-- What `Send` sends for a response: another one, if that is not within the limits. -/
def sentFor (options : HttpServerOptions) (output : ServerHttpResponse) : ServerHttpResponse :=
  let refused := refusal 500 (ascii "HttpResponseRefused")
  let output :=
    if output.status < 200 || lastResponseStatus < output.status || options.responseBytes < output.body.length ||
        !headerText output.contentType || contentTypeBytes < output.contentType.length ||
        headerCount < output.headers.length then
      refused
    else output
  if headersRefused 0 output.headers then refused else output

/-! ### What they keep -/

theorem readHeaders_keeps (request : Request) (shown : List Shown) :
    (readHeaders request shown).input.body = request.input.body ∧
      (readHeaders request shown).phase = request.phase ∧
      ((readHeaders request shown).refusal = 0 → request.refusal = 0) := by
  induction shown generalizing request with
  | nil => exact ⟨rfl, rfl, id⟩
  | cons header rest ih =>
    obtain ⟨name, value, failed⟩ := header
    unfold readHeaders
    split
    · exact ⟨rfl, rfl, fun hzero => by cases hzero⟩
    · split
      · exact ⟨rfl, rfl, fun hzero => by cases hzero⟩
      · split
        · exact ⟨rfl, rfl, fun hzero => by cases hzero⟩
        · exact ih _

/-- A piece is stored within both limits, refused, or raises without being charged. -/
theorem append_spec {options : HttpServerOptions} {bodyBytes : Nat} {body : Bytes}
    (hbody : body.length ≤ options.bodyBytes)
    (htotal : bodyBytes ≤ options.totalBodyBytes) (bytes : Bytes) (failed : Bool) :
    append options bodyBytes body bytes failed = .refused ∨
      append options bodyBytes body bytes failed = .raised bodyBytes ∨
      append options bodyBytes body bytes failed = .stored (bodyBytes + bytes.length) (body ++ bytes) ∧
        (body ++ bytes).length ≤ options.bodyBytes ∧ bodyBytes + bytes.length ≤ options.totalBodyBytes := by
  unfold append
  rw [minus_eq hbody, minus_eq htotal]
  by_cases hown : options.bodyBytes - body.length < bytes.length
  · exact .inl (if_pos hown)
  · by_cases hall : options.totalBodyBytes - bodyBytes < bytes.length
    · exact .inl (by rw [if_neg hown, if_pos hall])
    · rw [if_neg hown, if_neg hall, minus_eq (Nat.le_add_left _ _), Nat.add_sub_cancel]
      cases failed with
      | true => exact .inr (.inl rfl)
      | false =>
        refine .inr (.inr ⟨rfl, ?_, by omega⟩)
        rw [List.length_append]
        omega

/-! ### The library's side -/

/-- What the library knows of a request, and what became of it. -/
structure Exchange where
  /-- `Access` was called with its headers. -/
  opened : Bool := false
  /-- The end of its body was announced. -/
  ended : Bool := false
  /-- `Access` returned `MHD_NO`. -/
  closed : Bool := false
  suspended : Bool := false
  completed : Bool := false
  /-- The pieces of its body that `Access` was called with. -/
  delivered : Bytes := []
  queued : Nat := 0
  /-- What the handler was called with. -/
  handed : List ServerHttpRequest := []
  /-- The calls of `MHD_queue_response`. -/
  offers : Nat := 0
  answers : List ServerHttpResponse := []

/-- A call of `Access`. -/
structure Call where
  method : Bytes
  headers : List Shown := []
  upload : Bytes := []
  /-- Memory runs out, at the method, at the piece or at the queue. -/
  failed : Bool := false
  /-- The library makes the response. -/
  made : Bool := true
  /-- The library takes the response. -/
  takes : Bool := true

namespace Exchange

/-- The first call is with the headers; a later one without a piece is the end of the body. -/
def told (exchange : Exchange) (call : Call) : Exchange :=
  if exchange.opened then {exchange with ended := exchange.ended || call.upload = []}
  else {exchange with opened := true}

def took (exchange : Exchange) (bytes : Bytes) : Exchange :=
  {exchange with delivered := exchange.delivered ++ bytes}

def close (exchange : Exchange) : Exchange := {exchange with closed := true}

/-- `MHD_queue_response`: a request that has a response gets no other. -/
def offer (exchange : Exchange) (response : ServerHttpResponse) (takes : Bool) : Exchange :=
  if takes && exchange.answers = [] then {exchange with offers := exchange.offers + 1, answers := [response]}
  else {exchange with offers := exchange.offers + 1, closed := true}

end Exchange

/-- A connection's request, which there is one of at a time. -/
structure Slot where
  request : Option Request := none
  exchange : Exchange := {}

/-- The bytes of its body. -/
def Slot.bytes (slot : Slot) : Nat := (slot.request.map fun request => request.input.body.length).getD 0

/-! ### The server -/

inductive Stage
  | taken
  | handled
  | ready
  deriving DecidableEq

inductive Worker
  | waiting
  | holding (id : Nat) (stage : Stage)
  | returned
  deriving DecidableEq

structure Executor where
  bodyBytes : Nat := 0
  jobs : List Nat := []
  accepting : Bool := true
  workers : Nat → Worker := fun _ => .waiting
  /-- How many requests were begun. -/
  next : Nat := 0
  slots : Nat → Slot := fun _ => {}

namespace Executor

def put (s : Executor) (id : Nat) (slot : Slot) : Executor := {s with slots := Function.update s.slots id slot}

def set (s : Executor) (w : Nat) (worker : Worker) : Executor :=
  {s with workers := Function.update s.workers w worker}

/-- `Begin`, which leaves no request where memory runs out. -/
def begin (s : Executor) (target : Bytes) (failed : Bool) : Executor :=
  {s with
    next := s.next + 1
    slots := Function.update s.slots s.next {request := if failed then none else some (begun target)} }

/-- `Complete`, and the destructor of the request. -/
def complete (s : Executor) (id : Nat) : Executor :=
  {s.put id ⟨none, {(s.slots id).exchange with completed := true}⟩ with
    bodyBytes := match (s.slots id).request with
      | none => s.bodyBytes
      | some request => minus s.bodyBytes request.input.body.length }

/-- `Send`. -/
def send (options : HttpServerOptions) (s : Executor) (id : Nat) (request : Request) (exchange : Exchange)
    (call : Call) : Executor :=
  let output := sentFor options request.output
  if call.made then s.put id ⟨some {request with output, phase := .sent}, exchange.offer output call.takes⟩
  else s.put id ⟨some {request with output}, exchange.close⟩

/-- `Access`, with a piece of the body. -/
def takePiece (options : HttpServerOptions) (s : Executor) (id : Nat) (request : Request) (exchange : Exchange)
    (call : Call) : Executor :=
  match append options s.bodyBytes request.input.body call.upload call.failed with
  | .refused => s.put id ⟨some {request with refusal := 413}, exchange.took call.upload⟩
  | .raised bodyBytes => {s.put id ⟨some request, (exchange.took call.upload).close⟩ with bodyBytes}
  | .stored bodyBytes body =>
    {s.put id ⟨some {request with input := {request.input with body} }, exchange.took call.upload⟩ with bodyBytes}

/-- `Access`, when the body has ended. -/
def endBody (options : HttpServerOptions) (s : Executor) (id : Nat) (request : Request) (exchange : Exchange)
    (call : Call) : Executor :=
  match request.phase with
  | .ready => s.send options id request exchange call
  | .queued | .sent => s.put id ⟨some request, exchange⟩
  | .receiving =>
    if !s.accepting || options.queue ≤ s.jobs.length then
      s.send options id {request with output := refusal 503 (ascii "HttpExecutorBusy")} exchange call
    else if call.failed then s.put id ⟨some request, exchange.close⟩
    else
      {s.put id ⟨some {request with phase := .queued},
        {exchange with suspended := true, queued := exchange.queued + 1}⟩ with jobs := s.jobs ++ [id]}

/-- `Access`. -/
def access (options : HttpServerOptions) (s : Executor) (id : Nat) (call : Call) : Executor :=
  let exchange := (s.slots id).exchange.told call
  match (s.slots id).request with
  | none => s.put id ⟨none, exchange.close⟩
  | some request =>
    if request.input.method = [] then
      if call.failed then s.put id ⟨some request, exchange.close⟩
      else
        let request := {request with input := {request.input with method := call.method} }
        s.put id ⟨some (readHeaders request call.headers), exchange⟩
    else if request.refusal ≠ 0 then
      s.send options id {request with output := refusal request.refusal (ascii "HttpRequestRefused")}
        (exchange.took call.upload) call
    else if call.upload ≠ [] then s.takePiece options id request exchange call
    else s.endBody options id request exchange call

/-- The handler's response, or that of a handler that raises. -/
def handled (s : Executor) (w id : Nat) (request : Request) (result : Option ServerHttpResponse) : Executor :=
  (s.put id ⟨some {request with output := result.getD (refusal 500 (ascii "HttpHandlerFailure"))},
    {(s.slots id).exchange with handed := request.input :: (s.slots id).exchange.handed}⟩).set w
      (.holding id .handled)

end Executor

/-! ### Steps -/

/-- A call of the library, what a worker does next, or the first statement of `Drain`. -/
inductive Step (options : HttpServerOptions) (s : Executor) : Executor → Prop
  | begin (target : Bytes) (failed : Bool) : Step options s (s.begin target failed)
  | access {id : Nat} {call : Call} (hbegun : id < s.next) (hopen : (s.slots id).exchange.completed = false)
      (hkept : (s.slots id).exchange.closed = false) (hawake : (s.slots id).exchange.suspended = false)
      (hpiece : call.upload ≠ [] →
        (s.slots id).exchange.opened = true ∧ (s.slots id).exchange.ended = false) :
      Step options s (s.access options id call)
  | complete {id : Nat} (hbegun : id < s.next) (hopen : (s.slots id).exchange.completed = false)
      (hawake : (s.slots id).exchange.suspended = false) : Step options s (s.complete id)
  | take {w id : Nat} {rest : List Nat} (hw : w < options.workers) (hwaiting : s.workers w = .waiting)
      (hjobs : s.jobs = id :: rest) : Step options s ({s with jobs := rest}.set w (.holding id .taken))
  | handle {w id : Nat} {request : Request} (hw : w < options.workers) (hholding : s.workers w = .holding id .taken)
      (hrequest : (s.slots id).request = some request) (result : Option ServerHttpResponse) :
      Step options s (s.handled w id request result)
  | ready {w id : Nat} {request : Request} (hw : w < options.workers)
      (hholding : s.workers w = .holding id .handled) (hrequest : (s.slots id).request = some request) :
      Step options s
        ((s.put id ⟨some {request with phase := .ready}, (s.slots id).exchange⟩).set w (.holding id .ready))
  | resume {w id : Nat} (hw : w < options.workers) (hholding : s.workers w = .holding id .ready) :
      Step options s
        ((s.put id ⟨(s.slots id).request, {(s.slots id).exchange with suspended := false}⟩).set w .waiting)
  | leave {w : Nat} (hw : w < options.workers) (hwaiting : s.workers w = .waiting) (hjobs : s.jobs = [])
      (hclosed : s.accepting = false) : Step options s (s.set w .returned)
  | close : Step options s {s with accepting := false}

/-- A state of a server whose options were accepted. -/
def Reached (options : HttpServerOptions) (s : Executor) : Prop :=
  Undo.Reachable (fun s => options.valid = true ∧ s = {}) (Step options) s

end Agiru.Http
