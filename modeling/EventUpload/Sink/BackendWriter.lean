import EventUpload.Backend.Service
import EventUpload.Backend.Web
import EventUpload.Options.Basic

/-!
# Sending events to a backend

Events are gathered into batches of a fixed size. Flushing sends what is gathered as the last batch,
even if that is nothing. Then the service is asked how far it has got, again and again with a pause
in between, until it has got to the last event that was sent. The events of a batch whose delivery
fails are not sent again. The backend is a service at hand, or one on the web.
-/

set_option autoImplicit false

namespace EventUpload

inductive Connection where
  | service
  | web (client : WebClient)
deriving BEq, DecidableEq, Repr

/-- A writer to one invocation of a backend. -/
structure BackendWriter where
  connection : Connection
  requestId : String
  invocationId : String
  projectId : Option String
  keywords : List String
  batchSize : Nat
  pollInterval : Nat
  gathered : List Event
  lastSent : Nat
  /-- The batch that is being delivered, with the number of its delivery. -/
  onTheWay : Option (Batch × Nat)
deriving Repr

namespace BackendWriter

def new (connection : Connection) (options : BackendOptions) (requestId invocationId : String) :
    BackendWriter where
  connection := connection
  requestId := requestId
  invocationId := invocationId
  projectId := options.projectId
  keywords := options.keywords.map ("user_keyword=" ++ ·)
  batchSize := max options.batchSize 1
  pollInterval := options.pollInterval
  gathered := []
  lastSent := 0
  onTheWay := none

/-- The batch of everything that is gathered. An empty batch starts after the last event sent. -/
def batch (w : BackendWriter) (last : Bool) : Batch where
  requestId := w.requestId
  invocationId := w.invocationId
  projectId := w.projectId
  keywords := w.keywords
  firstSequence := (w.gathered.head?.map (·.sequence)).getD (w.lastSent + 1)
  events := w.gathered
  last := last

/-- A chain of causes in one line. -/
def inOneLine {α : Type} (r : Except (List String) α) : Except String α :=
  r.mapError (String.intercalate ": ")

/-- Starts the delivery of everything that is gathered; the answer is how long it takes. -/
def startDelivery (w : BackendWriter) (service : Service) (last : Bool) :
    BackendWriter × Service × Nat :=
  let started (n : Nat) : BackendWriter :=
    { w with gathered := [], onTheWay := some (w.batch last, n) }
  match w.connection with
  | .service =>
    let (service, n) := service.startDelivery
    (started n, service, service.deliveryTime)
  | .web _ => (started 0, service, 0)

/-- Gathers an event, and starts a delivery if that completes a batch. -/
def startWrite (w : BackendWriter) (service : Service) (e : Event) :
    BackendWriter × Service × Nat :=
  let w := { w with gathered := w.gathered ++ [e] }
  if w.batchSize ≤ w.gathered.length then w.startDelivery service false else (w, service, 0)

def endDelivery (w : BackendWriter) (service : Service) (web : Web) :
    BackendWriter × Service × Except String Unit :=
  match w.onTheWay with
  | none => (w, service, .ok ())
  | some (batch, n) =>
    -- Whether it arrives or not, it is not sent again.
    let w := { w with onTheWay := none }
    let (service, result) := match w.connection with
      | .service => service.endDelivery n batch
      | .web client => (service, inOneLine (client.publish web batch))
    match result with
    | .error reason => (w, service, .error reason)
    | .ok () => ({ w with lastSent := batch.lastNumber?.getD w.lastSent }, service, .ok ())

/-- Gives a delivery up that is on the way; its events are lost. -/
def abandon (w : BackendWriter) : BackendWriter := { w with onTheWay := none }

/-- Asks whether everything sent has been acknowledged. -/
def ask (w : BackendWriter) (service : Service) (web : Web) : Service × Except String Bool :=
  let (service, answer) := match w.connection with
    | .service => service.ask w.invocationId
    | .web client => (service, inOneLine (client.acknowledged web w.invocationId))
  (service, answer.map fun n => w.lastSent ≤ n)

end BackendWriter

end EventUpload
