import Synapse.Replication.Batches

/-!
# The replication command handler

The writers of a stream send their rows and positions over one channel.  `ReplicationCommandHandler`
queues what it receives and treats it one command after the other: rows without a token are kept in
`_pending_batches` until one with a token completes the batch, and a POSITION that cannot be discarded
empties `_pending_batches` and catches up with the writer by fetching what is missing.

`_pending_batches` has one entry for the stream, not one for each writer.  As long as the rows of a
batch are treated without a command of another writer in between, but for positions that are
discarded, the batches that `_process_rdata` treats for a writer are exactly those that the writer has
sent, in that order (`run_faithful`); what is discarded has a token the receiver is past.  Another
writer's row gets the rows that are kept, and another writer's position drops them
(`run_crossingWriters`).
-/

namespace Synapse.Replication

open List

/-! ## The code -/

inductive Command (ω ρ : Type)
  | rdata (instanceName : ω) (token : Option ℤ) (row : ρ)
  | position (instanceName : ω) (prevToken newToken : ℤ)
  deriving DecidableEq

/-- The writer that has sent a command. -/
def Command.instanceName {ω ρ : Type} : Command ω ρ → ω
  | .rdata w _ _ => w
  | .position w _ _ => w

/-- What a stream does with its current tokens, one for each writer. -/
structure Stream (ω : Type) where
  /-- `can_discard_position`. -/
  canDiscardPosition : (ω → ℤ) → ω → ℤ → ℤ → Bool
  /-- The current tokens after `process_replication_position`. -/
  advance : (ω → ℤ) → ω → ℤ → ω → ℤ

/-- `update_function` of a stream: the updates of a writer after a token and up to another one, up to
where they go, and whether there are more. -/
abbrev UpdateFunction (ω ρ : Type) : Type := ω → ℤ → ℤ → List (ℤ × ρ) × ℤ × Bool

/-- A batch that `_process_rdata` has completed: the current token of the writer then, and whether
`on_rdata` was called with it. -/
structure Delivery (ω ρ : Type) where
  instanceName : ω
  token : ℤ
  rows : List ρ
  currentToken : ℤ
  called : Bool
  deriving DecidableEq

/-- The state of the handler for one stream. -/
structure Handler (ω ρ : Type) where
  queue : List (Command ω ρ)
  /-- The stream is in `_streams_by_connection`. -/
  connected : Bool
  pendingBatches : List ρ
  /-- The writer of the last row that was added to `pendingBatches`; the code does not keep it. -/
  pendingFrom : Option ω
  currentToken : ω → ℤ
  deliveries : List (Delivery ω ρ)
  /-- The calls of `on_rdata` while catching up. -/
  fetched : List (ω × ℤ × List ρ)

variable {ω ρ : Type}

namespace Handler

/-- `_process_rdata`. -/
def processRdata (stream : Stream ω) (h : Handler ω ρ) (w : ω) (token : Option ℤ) (row : ρ) :
    Handler ω ρ :=
  if h.connected = false then h
  else
    match token with
    | none => { h with pendingBatches := h.pendingBatches ++ [row], pendingFrom := some w }
    | some token =>
      let rows := h.pendingBatches ++ [row]
      let current := h.currentToken w
      if token ≤ current then
        { h with
          pendingBatches := []
          pendingFrom := none
          deliveries := h.deliveries ++ [⟨w, token, rows, current, false⟩] }
      else
        { h with
          pendingBatches := []
          pendingFrom := none
          deliveries := h.deliveries ++ [⟨w, token, rows, current, true⟩]
          currentToken := stream.advance h.currentToken w token }

/-- `get_updates_since`. -/
def getUpdatesSince (update : UpdateFunction ω ρ) (w : ω) (fromToken uptoToken : ℤ) :
    List (ℤ × ρ) × ℤ × Bool :=
  if fromToken = uptoToken then ([], uptoToken, false) else update w fromToken uptoToken

/-- `on_rdata` for a batch that was fetched. -/
def onFetched (stream : Stream ω) (w : ω) (h : Handler ω ρ) (batch : ℤ × List ρ) : Handler ω ρ :=
  { h with
    fetched := h.fetched ++ [(w, batch)]
    currentToken := stream.advance h.currentToken w batch.1 }

/-- The loop of `_process_position` that fetches missing updates. -/
def catchUp (stream : Stream ω) (update : UpdateFunction ω ρ) (w : ω) (newToken : ℤ) :
    ℕ → ℤ → Handler ω ρ → Option (Handler ω ρ)
  | 0, _, _ => none
  | rounds + 1, current, h =>
    let (updates, current, missing) := getUpdatesSince update w current newToken
    let h := (batchUpdates updates).foldl (onFetched stream w) h
    if missing then catchUp stream update w newToken rounds current h else some h

/-- `_process_position`. -/
def processPosition (stream : Stream ω) (update : UpdateFunction ω ρ) (h : Handler ω ρ) (w : ω)
    (prevToken newToken : ℤ) : Option (Handler ω ρ) :=
  if stream.canDiscardPosition h.currentToken w prevToken newToken && h.connected then some h
  else
    let h := { h with connected := false, pendingBatches := [], pendingFrom := none }
    let current := h.currentToken w
    let h' :=
      if prevToken ≤ current ∧ current ≤ newToken then some h
      else catchUp stream update w newToken ((newToken - current).toNat + 1) current h
    h'.map fun h =>
      { h with currentToken := stream.advance h.currentToken w newToken, connected := true }

/-- `_process_command`. -/
def processCommand (stream : Stream ω) (update : UpdateFunction ω ρ) (h : Handler ω ρ) :
    Command ω ρ → Option (Handler ω ρ)
  | .rdata w token row => some (h.processRdata stream w token row)
  | .position w prevToken newToken => h.processPosition stream update w prevToken newToken

/-- `on_RDATA` and `on_POSITION`; while a position is being processed the stream is not connected. -/
def receive [DecidableEq ω] (stream : Stream ω) (ownName : ω) (h : Handler ω ρ) (catchingUp : Bool)
    (cmd : Command ω ρ) : Handler ω ρ :=
  if cmd.instanceName = ownName then h
  else
    match cmd with
    | .rdata _ _ _ => { h with queue := h.queue ++ [cmd] }
    | .position w prevToken newToken =>
      if stream.canDiscardPosition h.currentToken w prevToken newToken && h.connected &&
        !catchingUp then h
      else { h with queue := h.queue ++ [cmd] }

end Handler

/-- What can happen at a handler. -/
inductive Action (ω ρ : Type)
  /-- A command comes in, perhaps while another one is being processed. -/
  | receive (catchingUp : Bool) (cmd : Command ω ρ)
  /-- A turn of the loop of `_unsafe_process_queue`, and what `update_function` answers in it. -/
  | process (update : UpdateFunction ω ρ)
  /-- Other parts of the server move the current tokens. -/
  | move (currentToken : ω → ℤ)

def Handler.step [DecidableEq ω] (stream : Stream ω) (ownName : ω) (h : Handler ω ρ) :
    Action ω ρ → Option (Handler ω ρ)
  | .receive catchingUp cmd => some (h.receive stream ownName catchingUp cmd)
  | .process update =>
    match h.queue with
    | [] => some h
    | cmd :: queue => { h with queue := queue }.processCommand stream update cmd
  | .move currentToken => some { h with currentToken := currentToken }

/-- A handler that is connected to the stream and has received nothing. -/
def Handler.start (currentToken : ω → ℤ) : Handler ω ρ := ⟨[], true, [], none, currentToken, [], []⟩

def Handler.run [DecidableEq ω] (stream : Stream ω) (ownName : ω) (currentToken : ω → ℤ)
    (actions : List (Action ω ρ)) : Option (Handler ω ρ) :=
  actions.foldlM (Handler.step stream ownName) (Handler.start currentToken)

/-- What a writer does for the stream in a turn of `_run_notifier_loop`. -/
structure Round (ρ : Type) where
  /-- `should_announce_positions`. -/
  announce : Bool
  lastToken : ℤ
  /-- What `get_updates` gives. -/
  updates : List (ℤ × ρ)
  currentToken : ℤ
  /-- The stream is `caches` and has had no writes since the last token. -/
  noWrites : Bool

/-- The commands that a writer sends in a turn. -/
def Round.commands (w : ω) (round : Round ρ) : List (Command ω ρ) :=
  (if round.announce then [.position w round.lastToken round.lastToken] else []) ++
    match round.updates.getLast? with
    | none => if round.noWrites then [] else [.position w round.lastToken round.currentToken]
    | some (token, _) =>
      (Streamer.batchUpdates round.updates).map (fun update => .rdata w update.1 update.2) ++
        if token < round.currentToken then [.position w token round.currentToken] else []

/-! ## What was sent and what was treated -/

section
variable [DecidableEq ω]

def commandsOf (w : ω) (cmds : List (Command ω ρ)) : List (Command ω ρ) :=
  cmds.filter fun cmd => cmd.instanceName = w

/-- The rows of a writer among commands. -/
def rdataOf (w : ω) (cmds : List (Command ω ρ)) : List (Option ℤ × ρ) := cmds.filterMap fun
    | .rdata w' token row => if w' = w then some (token, row) else none
    | .position _ _ _ => none

def received (actions : List (Action ω ρ)) : List (Command ω ρ) := actions.filterMap fun
    | .receive _ cmd => some cmd
    | _ => none

/-- The batches that `_process_rdata` has completed for a writer. -/
def Handler.batchesOf (h : Handler ω ρ) (w : ω) : List (ℤ × List ρ) :=
  h.deliveries.filterMap fun d => if d.instanceName = w then some (d.token, d.rows) else none

def sentBatches (rounds : List (Round ρ)) : List (ℤ × List ρ) :=
  rounds.flatMap fun round => Handler.batchUpdates round.updates

/-- While a batch is incomplete, the next command that is not discarded is a row of its writer. -/
def Handler.Undisturbed (stream : Stream ω) (h : Handler ω ρ) : Action ω ρ → Prop
  | .process _ => ∀ w cmd queue, h.pendingFrom = some w → h.queue = cmd :: queue →
    (∃ token row, cmd = .rdata w token row) ∨
      ∃ w' prevToken newToken, cmd = .position w' prevToken newToken ∧
        stream.canDiscardPosition h.currentToken w' prevToken newToken = true
  | _ => True

def Handler.UndisturbedRun (stream : Stream ω) (ownName : ω) (h : Handler ω ρ) : List (Action ω ρ) → Prop
  | [] => True
  | action :: actions => h.Undisturbed stream action ∧
    ∀ h', h.step stream ownName action = some h' → h'.UndisturbedRun stream ownName actions

/-- What is left to fetch becomes less when there is more. -/
def UpdateFunction.Progresses (update : UpdateFunction ω ρ) : Prop :=
  ∀ w fromToken uptoToken, (update w fromToken uptoToken).2.2 = true →
    fromToken < (update w fromToken uptoToken).2.1 ∧ (update w fromToken uptoToken).2.1 ≤ uptoToken

/-- The batches of a writer have been kept together. -/
structure Faithful (sent : List (Round ρ)) (actions : List (Action ω ρ)) (w : ω) (h : Handler ω ρ) :
    Prop where
  /-- What is treated for the writer are batches of the writer, in order. -/
  sound : h.batchesOf w <+: sentBatches sent
  /-- When all commands of the writer have been treated so have all its batches. -/
  complete : commandsOf w (received actions) = sent.flatMap (Round.commands w) →
    (∀ cmd ∈ h.queue, cmd.instanceName ≠ w) → h.batchesOf w = sentBatches sent
  /-- `on_rdata` is called but for tokens that the receiver is past. -/
  called : ∀ d ∈ h.deliveries, d.instanceName = w → (d.called = true ↔ d.currentToken < d.token)

/-! ## Rows and batches -/

variable {w : ω} {h : Handler ω ρ}

theorem rdataOf_append (xs ys : List (Command ω ρ)) :
    rdataOf w (xs ++ ys) = rdataOf w xs ++ rdataOf w ys := filterMap_append

theorem rdataOf_position (w' : ω) (prevToken newToken : ℤ) (cmds : List (Command ω ρ)) :
    rdataOf w (.position w' prevToken newToken :: cmds) = rdataOf w cmds := rfl

theorem rdataOf_rdata (w' : ω) (token : Option ℤ) (row : ρ) (cmds : List (Command ω ρ)) :
    rdataOf w (.rdata w' token row :: cmds) =
      if w' = w then (token, row) :: rdataOf w cmds else rdataOf w cmds := by
  unfold rdataOf
  by_cases hw : w' = w
  · simp [hw]
  · simp [hw]

/-- Commands of other writers have no rows of a writer. -/
theorem rdataOf_of_ne {cmds : List (Command ω ρ)} (h : ∀ cmd ∈ cmds, cmd.instanceName ≠ w) :
    rdataOf w cmds = [] := by
  refine filterMap_eq_nil_iff.mpr fun cmd hcmd => ?_
  cases cmd with
  | rdata w' token row => exact if_neg (h _ hcmd)
  | position w' prevToken newToken => rfl

theorem rdataOf_commandsOf (cmds : List (Command ω ρ)) :
    rdataOf w (commandsOf w cmds) = rdataOf w cmds := by
  unfold commandsOf
  induction cmds with
  | nil => rfl
  | cons cmd cmds ih =>
    by_cases hcmd : cmd.instanceName = w
    · rw [filter_cons_of_pos (by simpa using hcmd)]
      cases cmd with
      | rdata w' token row => rw [rdataOf_rdata, rdataOf_rdata, ih]
      | position w' prevToken newToken => exact ih
    · rw [filter_cons_of_neg (by simpa using hcmd), ih]
      cases cmd with
      | rdata w' token row => exact (rdataOf_rdata w' token row cmds ▸ if_neg hcmd).symm
      | position w' prevToken newToken => rfl

theorem rdataOf_commands (w : ω) (round : Round ρ) :
    rdataOf w (round.commands w) = Streamer.batchUpdates round.updates := by
  have hrows : ∀ us : List (Option ℤ × ρ), rdataOf w (us.map fun u => .rdata w u.1 u.2) = us := by
    intro us
    induction us with
    | nil => rfl
    | cons u us ih => rw [map_cons, rdataOf_rdata, if_pos rfl, ih]
  have hannounce : rdataOf w (if round.announce then
      [Command.position w round.lastToken round.lastToken] else ([] : List (Command ω ρ))) = [] := by
    split
    · rfl
    · rfl
  unfold Round.commands
  rw [rdataOf_append, hannounce, nil_append]
  split
  next hlast =>
    rw [getLast?_eq_none_iff.mp hlast]
    split
    · rfl
    · rfl
  · rw [rdataOf_append, hrows]
    split
    · exact append_nil _
    · exact append_nil _

/-- The rows that a writer sends make up its batches. -/
theorem assemble_rdataOf_sent (w : ω) (sent : List (Round ρ)) :
    assemble [] (rdataOf w (sent.flatMap (Round.commands w))) = (sentBatches sent, []) := by
  have hrows : rdataOf w (sent.flatMap (Round.commands w)) =
      (sent.map (·.updates)).flatMap Streamer.batchUpdates := by
    induction sent with
    | nil => rfl
    | cons round sent ih =>
      rw [flatMap_cons, rdataOf_append, rdataOf_commands, ih]
      rfl
  rw [hrows, assemble_flatMap_batchUpdates, flatMap_map]
  rfl

theorem batchesOf_snoc (d : Delivery ω ρ) {h' : Handler ω ρ} (heq : h'.deliveries = h.deliveries ++ [d]) :
    h'.batchesOf w = if d.instanceName = w then h.batchesOf w ++ [(d.token, d.rows)]
      else h.batchesOf w := by
  unfold Handler.batchesOf
  rw [heq, filterMap_append]
  by_cases hd : d.instanceName = w
  · simp [hd]
  · simp [hd]

end

/-! ## Steps -/

namespace Handler

/-- Only what is fetched and the current tokens differ. -/
structure SameQueues (h h' : Handler ω ρ) : Prop where
  queue : h'.queue = h.queue
  pendingBatches : h'.pendingBatches = h.pendingBatches
  pendingFrom : h'.pendingFrom = h.pendingFrom
  deliveries : h'.deliveries = h.deliveries

variable (stream : Stream ω)

theorem SameQueues.onFetched (w : ω) {h h' : Handler ω ρ} (hs : SameQueues h h')
    (batches : List (ℤ × List ρ)) : SameQueues h (batches.foldl (onFetched stream w) h') := by
  induction batches generalizing h' with
  | nil => exact hs
  | cons batch batches ih => exact ih ⟨hs.queue, hs.pendingBatches, hs.pendingFrom, hs.deliveries⟩

variable {h : Handler ω ρ} {update : UpdateFunction ω ρ}

/-- Catching up comes to an end. -/
theorem catchUp_spec (hupdate : update.Progresses) (w : ω)
    (newToken : ℤ) : ∀ (rounds : ℕ) (current : ℤ) (h' : Handler ω ρ),
      SameQueues h h' → (newToken - current).toNat < rounds →
      ∃ h'', catchUp stream update w newToken rounds current h' = some h'' ∧ SameQueues h h'' := by
  intro rounds
  induction rounds with
  | zero => intro current h' _ hlt; omega
  | succ rounds ih =>
    intro current h' hs hlt
    unfold catchUp
    have hprogress : (getUpdatesSince update w current newToken).2.2 = true →
        current < (getUpdatesSince update w current newToken).2.1 ∧
          (getUpdatesSince update w current newToken).2.1 ≤ newToken := by
      unfold getUpdatesSince
      split
      · intro hf
        exact absurd hf Bool.false_ne_true
      · exact hupdate w current newToken
    have hs' := hs.onFetched stream w (batchUpdates (getUpdatesSince update w current newToken).1)
    dsimp only
    split
    next hmissing =>
      obtain ⟨hlow, hhigh⟩ := hprogress hmissing
      have hless : (newToken - (getUpdatesSince update w current newToken).2.1).toNat < rounds := by
        omega
      exact ih _ _ hs' hless
    · exact ⟨_, rfl, hs'⟩

/-- A row without a token is added to the pending ones. -/
theorem processRdata_none (hconn : h.connected = true) (w : ω) (row : ρ) :
    h.processRdata stream w none row =
      { h with pendingBatches := h.pendingBatches ++ [row], pendingFrom := some w } := by
  unfold processRdata
  rw [if_neg (by rw [hconn]; decide)]

/-- A row with a token completes a batch with the pending ones. -/
theorem processRdata_some (hconn : h.connected = true) (w : ω) (token : ℤ) (row : ρ) :
    ∃ h' d, h.processRdata stream w (some token) row = h' ∧
      h'.connected = true ∧ h'.queue = h.queue ∧ h'.pendingBatches = [] ∧ h'.pendingFrom = none ∧
      h'.deliveries = h.deliveries ++ [d] ∧ d.instanceName = w ∧ d.token = token ∧
      d.rows = h.pendingBatches ++ [row] ∧ (d.called = true ↔ d.currentToken < d.token) := by
  unfold processRdata
  rw [if_neg (by rw [hconn]; decide)]
  dsimp only
  split
  next hle =>
    refine ⟨_, ⟨w, token, h.pendingBatches ++ [row], h.currentToken w, false⟩, rfl, hconn, rfl, rfl,
      rfl, rfl, rfl, rfl, rfl, ?_⟩
    exact iff_of_false Bool.false_ne_true (Int.not_lt.mpr hle)
  next hlt =>
    refine ⟨_, ⟨w, token, h.pendingBatches ++ [row], h.currentToken w, true⟩, rfl, hconn, rfl, rfl,
      rfl, rfl, rfl, rfl, rfl, ?_⟩
    exact iff_of_true rfl (Int.not_le.mp hlt)

/-- `_process_position` ends, connected, and touches neither the queue nor the batches that were
completed; it empties the pending batch unless the position is discarded. -/
theorem processPosition_spec (hupdate : update.Progresses)
    (hconn : h.connected = true) (w : ω) (prevToken newToken : ℤ) :
    ∃ h', h.processPosition stream update w prevToken newToken = some h' ∧ h'.connected = true ∧
      h'.queue = h.queue ∧ h'.deliveries = h.deliveries ∧
      (stream.canDiscardPosition h.currentToken w prevToken newToken = true →
        h'.pendingBatches = h.pendingBatches ∧ h'.pendingFrom = h.pendingFrom) ∧
      (stream.canDiscardPosition h.currentToken w prevToken newToken = false →
        h'.pendingBatches = [] ∧ h'.pendingFrom = none) := by
  unfold processPosition
  rw [hconn, Bool.and_true]
  cases hdiscard : stream.canDiscardPosition h.currentToken w prevToken newToken with
  | true =>
    exact ⟨h, rfl, hconn, rfl, rfl, fun _ => ⟨rfl, rfl⟩, fun hf => absurd hf (by decide)⟩
  | false =>
    rw [if_neg Bool.false_ne_true]
    dsimp only
    split
    · exact ⟨_, rfl, rfl, rfl, rfl, fun hf => absurd hf (by decide), fun _ => ⟨rfl, rfl⟩⟩
    · obtain ⟨h'', hrun, hs⟩ := catchUp_spec stream hupdate w newToken _ (h.currentToken w) _
        ⟨rfl, rfl, rfl, rfl⟩ (Nat.lt_succ_self _)
      rw [hrun]
      exact ⟨_, rfl, rfl, hs.queue, hs.deliveries, fun hf => absurd hf (by decide),
        fun _ => ⟨hs.pendingBatches, hs.pendingFrom⟩⟩

end Handler

section
variable [DecidableEq ω]

/-- What holds of the handler after some actions. -/
structure HandlerInv (ownName : ω) (actions : List (Action ω ρ)) (h : Handler ω ρ) : Prop where
  connected : h.connected = true
  idle : h.pendingFrom = none → h.pendingBatches = []
  /-- The rows of a writer are in the queue or have been treated: they are in completed batches, or
  pending. -/
  tracked : ∀ w, w ≠ ownName → ∃ treated, rdataOf w (received actions) = treated ++ rdataOf w h.queue ∧
      assemble [] treated = (h.batchesOf w, if h.pendingFrom = some w then h.pendingBatches else [])
  called : ∀ d ∈ h.deliveries, d.called = true ↔ d.currentToken < d.token

variable {ownName : ω} {actions : List (Action ω ρ)} {h h' : Handler ω ρ} {stream : Stream ω}
  (hinv : HandlerInv ownName actions h)
include hinv

/-- No row of another writer has come in. -/
theorem HandlerInv.of_received {actions' : List (Action ω ρ)}
    (heq : ∀ w, w ≠ ownName → rdataOf w (received actions') = rdataOf w (received actions)) :
    HandlerInv ownName actions' h :=
  ⟨hinv.connected, hinv.idle, fun w hw => heq w hw ▸ hinv.tracked w hw, hinv.called⟩

theorem HandlerInv.receive (catchingUp : Bool)
    (cmd : Command ω ρ) : HandlerInv ownName (actions ++ [.receive catchingUp cmd])
      (h.receive stream ownName catchingUp cmd) := by
  have hreceived : received (actions ++ [.receive catchingUp cmd]) = received actions ++ [cmd] := by
    simp [received]
  -- a command that is not queued has no rows of the others
  have hsame : (∀ w, w ≠ ownName → rdataOf w [cmd] = []) →
      HandlerInv ownName (actions ++ [.receive catchingUp cmd]) h := by
    refine fun hnone => hinv.of_received fun w hw => ?_
    rw [hreceived, rdataOf_append, hnone w hw, append_nil]
  have hqueue : HandlerInv ownName (actions ++ [.receive catchingUp cmd])
      { h with queue := h.queue ++ [cmd] } := by
    refine ⟨hinv.connected, hinv.idle, fun w hw => ?_, hinv.called⟩
    obtain ⟨treated, hrows, hassemble⟩ := hinv.tracked w hw
    refine ⟨treated, ?_, hassemble⟩
    rw [hreceived, rdataOf_append, rdataOf_append, hrows, append_assoc]
  unfold Handler.receive
  split
  next hself =>
    refine hsame fun w hw => rdataOf_of_ne fun cmd' hcmd' => ?_
    rw [mem_singleton.mp hcmd', hself]
    exact hw.symm
  · cases cmd with
    | rdata w token row => exact hqueue
    | position w prevToken newToken =>
      dsimp only
      split
      · exact hsame fun _ _ => rfl
      · exact hqueue

variable {queue : List (Command ω ρ)} {w : ω}

variable (stream) in
/-- A row of a writer is treated when no other writer's rows are pending. -/
theorem HandlerInv.processRdata {token : Option ℤ} {row : ρ}
    (hqueue : h.queue = .rdata w token row :: queue) (hpending : ∀ w', h.pendingFrom = some w' → w' = w) :
    HandlerInv ownName actions ({ h with queue := queue }.processRdata stream w token row) := by
  -- what is pending belongs to this writer
  have hwaiting : (if h.pendingFrom = some w then h.pendingBatches else []) = h.pendingBatches := by
    split
    · rfl
    next hne =>
      cases hfrom : h.pendingFrom with
      | none => exact (hinv.idle hfrom).symm
      | some w' => exact absurd (hpending w' hfrom ▸ hfrom) hne
  have hown : w ≠ ownName → ∃ treated,
      rdataOf w (received actions) = (treated ++ [(token, row)]) ++ rdataOf w queue ∧
        assemble [] treated = (h.batchesOf w, h.pendingBatches) := by
    intro hw
    obtain ⟨treated, hrows, hassemble⟩ := hinv.tracked w hw
    rw [hqueue, rdataOf_rdata, if_pos rfl] at hrows
    rw [hwaiting] at hassemble
    exact ⟨treated, by rw [hrows, append_assoc]; rfl, hassemble⟩
  have hothers : ∀ w', w' ≠ ownName → w' ≠ w → ∃ treated,
      rdataOf w' (received actions) = treated ++ rdataOf w' queue ∧
        assemble [] treated = (h.batchesOf w', []) := by
    intro w' hw' hne
    obtain ⟨treated, hrows, hassemble⟩ := hinv.tracked w' hw'
    rw [hqueue, rdataOf_rdata, if_neg (fun he => hne he.symm)] at hrows
    rw [if_neg (fun hfrom => hne (hpending w' hfrom))] at hassemble
    exact ⟨treated, hrows, hassemble⟩
  cases token with
  | none =>
    rw [Handler.processRdata_none stream (h := { h with queue := queue }) hinv.connected]
    refine ⟨hinv.connected, fun hnone => absurd hnone (by simp), fun w' hw' => ?_, hinv.called⟩
    by_cases hne : w' = w
    · subst hne
      obtain ⟨treated, hrows, hassemble⟩ := hown hw'
      refine ⟨_, hrows, ?_⟩
      rw [assemble_snoc, hassemble, if_pos rfl]
      rfl
    · obtain ⟨treated, hrows, hassemble⟩ := hothers w' hw' hne
      refine ⟨treated, hrows, ?_⟩
      rw [hassemble, if_neg (fun he => hne (Option.some.inj he).symm)]
      rfl
  | some token =>
    obtain ⟨h', d, hrun, hconn, hqueue', hbatches, hfrom, hdeliveries, rfl, rfl, hrows', hcalled⟩ :=
      Handler.processRdata_some stream (h := { h with queue := queue }) hinv.connected w token row
    rw [hrun]
    refine ⟨hconn, fun _ => hbatches, fun w' hw' => ?_, fun d' hd' => ?_⟩
    · have hnone : (if h'.pendingFrom = some w' then h'.pendingBatches else []) = [] := by
        rw [hfrom]
        rfl
      rw [hqueue', batchesOf_snoc d hdeliveries, hnone]
      by_cases hne : w' = d.instanceName
      · subst hne
        obtain ⟨treated, hrows, hassemble⟩ := hown hw'
        refine ⟨_, hrows, ?_⟩
        rw [assemble_snoc, hassemble, if_pos rfl, hrows']
        rfl
      · obtain ⟨treated, hrows, hassemble⟩ := hothers w' hw' hne
        refine ⟨treated, hrows, ?_⟩
        rw [hassemble, if_neg (fun he => hne he.symm)]
        rfl
    · rw [hdeliveries] at hd'
      exact forall_mem_append.mpr ⟨hinv.called, forall_mem_singleton.mpr hcalled⟩ d' hd'

variable (stream) in
/-- A position is treated when nothing is pending, or discarded. -/
theorem HandlerInv.processPosition {update : UpdateFunction ω ρ} (hupdate : update.Progresses)
    {prevToken newToken : ℤ} (hqueue : h.queue = .position w prevToken newToken :: queue)
    (hpending : stream.canDiscardPosition h.currentToken w prevToken newToken = false →
      h.pendingFrom = none) :
    ∃ h', { h with queue := queue }.processPosition stream update w prevToken newToken = some h' ∧
      HandlerInv ownName actions h' := by
  obtain ⟨h', hrun, hconn, hqueue', hdeliveries, hdiscarded, hcaught⟩ :=
    Handler.processPosition_spec stream hupdate (h := { h with queue := queue }) hinv.connected w
      prevToken newToken
  -- either way the same rows are pending
  have hsame : h'.pendingBatches = h.pendingBatches ∧ h'.pendingFrom = h.pendingFrom := by
    cases hdiscard : stream.canDiscardPosition h.currentToken w prevToken newToken with
    | true => exact hdiscarded hdiscard
    | false =>
      obtain ⟨hbatches, hfrom⟩ := hcaught hdiscard
      have hnone := hpending hdiscard
      exact ⟨hbatches.trans (hinv.idle hnone).symm, hfrom.trans hnone.symm⟩
  refine ⟨h', hrun, hconn, fun hnone => ?_, fun w' hw' => ?_, fun d hd => ?_⟩
  · rw [hsame.1]
    exact hinv.idle (hsame.2 ▸ hnone)
  · obtain ⟨treated, hrows, hassemble⟩ := hinv.tracked w' hw'
    rw [hqueue, rdataOf_position] at hrows
    refine ⟨treated, by rw [hqueue']; exact hrows, ?_⟩
    have hbatches : h'.batchesOf w' = h.batchesOf w' := by
      unfold Handler.batchesOf
      rw [hdeliveries]
    rw [hassemble, hbatches, hsame.1, hsame.2]
  · rw [hdeliveries] at hd
    exact hinv.called d hd

theorem HandlerInv.step (action : Action ω ρ) (hundisturbed : h.Undisturbed stream action)
    (hupdate : ∀ update, action = .process update → update.Progresses) :
    ∃ h', h.step stream ownName action = some h' ∧ HandlerInv ownName (actions ++ [action]) h' := by
  cases action with
  | receive catchingUp cmd => exact ⟨_, rfl, hinv.receive catchingUp cmd⟩
  | move currentToken =>
    have hinv' : HandlerInv ownName actions { h with currentToken := currentToken } :=
      ⟨hinv.connected, hinv.idle, hinv.tracked, hinv.called⟩
    exact ⟨_, rfl, hinv'.of_received fun w _ => by simp [received]⟩
  | process update =>
    have hkeep : ∀ {h' : Handler ω ρ}, HandlerInv ownName actions h' →
        HandlerInv ownName (actions ++ [.process update]) h' :=
      fun hinv' => hinv'.of_received fun w _ => by simp [received]
    unfold Handler.step
    cases hqueue : h.queue with
    | nil => exact ⟨h, rfl, hkeep hinv⟩
    | cons cmd queue =>
      cases cmd with
      | rdata w token row =>
        -- a row of another writer would mix two batches
        refine ⟨_, rfl, hkeep (hinv.processRdata stream hqueue fun w' hfrom => ?_)⟩
        rcases hundisturbed w' _ queue hfrom hqueue with ⟨token', row', heq⟩ | ⟨_, _, _, heq, _⟩
        · injection heq with hw _ _
          exact hw.symm
        · exact nomatch heq
      | position w prevToken newToken =>
        obtain ⟨h', hrun, hinv'⟩ := hinv.processPosition stream (hupdate update rfl) hqueue (by
            intro hdiscard
            cases hfrom : h.pendingFrom with
            | none => rfl
            | some w' =>
              rcases hundisturbed w' _ queue hfrom hqueue with ⟨_, _, heq⟩ | ⟨_, _, _, heq, htrue⟩
              · exact nomatch heq
              · injection heq with hw hprev hnew
                rw [← hw, ← hprev, ← hnew, hdiscard] at htrue
                exact absurd htrue Bool.false_ne_true)
        exact ⟨h', hrun, hkeep hinv'⟩

omit hinv

/-! ## Runs -/

theorem HandlerInv.start (currentToken : ω → ℤ) :
    HandlerInv ownName ([] : List (Action ω ρ)) (Handler.start currentToken) :=
  ⟨rfl, fun _ => rfl, fun _ _ => ⟨[], rfl, rfl⟩, nofun⟩

theorem HandlerInv.run : ∀ (actions past : List (Action ω ρ)) {h : Handler ω ρ},
    HandlerInv ownName past h → h.UndisturbedRun stream ownName actions →
    (∀ update, .process update ∈ actions → update.Progresses) →
    ∃ h', actions.foldlM (Handler.step stream ownName) h = some h' ∧
      HandlerInv ownName (past ++ actions) h' := by
  intro actions
  induction actions with
  | nil =>
    intro past h hinv _ _
    exact ⟨h, rfl, by rwa [append_nil]⟩
  | cons action actions ih =>
    intro past h hinv hundisturbed hupdate
    obtain ⟨h₁, hstep, hinv₁⟩ := hinv.step action hundisturbed.1 fun update heq =>
      hupdate update (heq ▸ mem_cons_self)
    obtain ⟨h', hrun, hinv'⟩ := ih (past ++ [action]) hinv₁ (hundisturbed.2 h₁ hstep)
      fun update hmem => hupdate update (mem_cons_of_mem _ hmem)
    rw [append_assoc] at hinv'
    refine ⟨h', ?_, hinv'⟩
    rw [foldlM_cons, hstep]
    exact hrun

/-- **Batches keep their writer and token** in every run in which no batch is disturbed. -/
theorem run_faithful (stream : Stream ω) (ownName : ω) (currentToken : ω → ℤ)
    (sent : ω → List (Round ρ)) (actions : List (Action ω ρ))
    (hsent : ∀ w, w ≠ ownName →
      commandsOf w (received actions) <+: (sent w).flatMap (Round.commands w))
    (hupdate : ∀ update, .process update ∈ actions → update.Progresses)
    (hundisturbed : (Handler.start currentToken).UndisturbedRun stream ownName actions) :
    ∃ h, Handler.run stream ownName currentToken actions = some h ∧
      ∀ w, w ≠ ownName → Faithful (sent w) actions w h := by
  obtain ⟨h, hrun, hinv⟩ := HandlerInv.run actions [] (HandlerInv.start currentToken) hundisturbed hupdate
  refine ⟨h, hrun, fun w hw => ?_⟩
  obtain ⟨treated, hrows, hassemble⟩ := hinv.tracked w hw
  have hall := assemble_rdataOf_sent w (sent w)
  rw [nil_append, ← rdataOf_commandsOf] at hrows
  have hbatches : (assemble [] treated).1 = h.batchesOf w := by rw [hassemble]
  refine ⟨?_, fun hreceived hqueue => ?_, fun d hd _ => hinv.called d hd⟩
  · -- the rows that were treated are the first ones that the writer has sent
    have hfirst : treated <+: rdataOf w ((sent w).flatMap (Round.commands w)) :=
      (hrows ▸ prefix_append treated _).trans ((hsent w hw).filterMap _)
    have hmono := assemble_mono hfirst
    rw [hall] at hmono
    rwa [← hbatches]
  · rw [hreceived, rdataOf_of_ne hqueue, append_nil] at hrows
    rw [← hbatches, ← hrows, hall]

end

/-! ## Two writers at once

Writer 1 sends two rows with token 4.  Writer 2 sends a row with token 5, or tells its position. -/

/-- A stream whose tokens only go up. -/
def crossingStream : Stream ℕ where
  canDiscardPosition currentToken w _ newToken := newToken ≤ currentToken w
  advance currentToken w token := fun w' => if w' = w then max (currentToken w') token
    else currentToken w'

def noUpdates : UpdateFunction ℕ ℕ := fun _ _ uptoToken => ([], uptoToken, false)

/-- What the writers send: writer 1 two rows with token 4, writer 2 what it does in a given turn. -/
def crossingSent (round : Round ℕ) : ℕ → List (Round ℕ)
  | 1 => [⟨false, 3, [(4, 10), (4, 11)], 4, false⟩]
  | 2 => [round]
  | _ => []

def rowRound : Round ℕ := ⟨false, 3, [(5, 20)], 5, false⟩

def positionRound : Round ℕ := ⟨false, 3, [], 5, false⟩

def threeCommands (cmd₁ cmd₂ cmd₃ : Command ℕ ℕ) : List (Action ℕ ℕ) :=
  [.receive false cmd₁, .receive false cmd₂, .receive false cmd₃,
    .process noUpdates, .process noUpdates, .process noUpdates]

/-- The row of writer 2 comes in between those of writer 1. -/
def crossingRow : List (Action ℕ ℕ) :=
  threeCommands (.rdata 1 none 10) (.rdata 2 (some 5) 20) (.rdata 1 (some 4) 11)

/-- The position of writer 2 comes in between the rows of writer 1. -/
def crossingPosition : List (Action ℕ ℕ) :=
  threeCommands (.rdata 1 none 10) (.position 2 3 5) (.rdata 1 (some 4) 11)

/-- The row of writer 2 is passed on with a row of writer 1; and a row of writer 1 is lost when writer
2 tells its position. -/
theorem run_crossingWriters :
    ((∀ w ∈ [1, 2],
        commandsOf w (received crossingRow) = (crossingSent rowRound w).flatMap (Round.commands w)) ∧
      sentBatches (crossingSent rowRound 2) = [(5, [20])] ∧
      (Handler.run crossingStream 0 (fun _ => 3) crossingRow).map (·.deliveries) =
        some [⟨2, 5, [10, 20], 3, true⟩, ⟨1, 4, [11], 3, true⟩]) ∧
    ((∀ w ∈ [1, 2], commandsOf w (received crossingPosition) =
        (crossingSent positionRound w).flatMap (Round.commands w)) ∧
      sentBatches (crossingSent positionRound 1) = [(4, [10, 11])] ∧
      (Handler.run crossingStream 0 (fun _ => 3) crossingPosition).map
        (fun h => (h.deliveries, h.fetched)) = some ([⟨1, 4, [11], 3, true⟩], [])) := by
  decide

/-- The row of writer 2 comes in after those of writer 1. -/
def rowAfterwards : List (Action ℕ ℕ) :=
  threeCommands (.rdata 1 none 10) (.rdata 1 (some 4) 11) (.rdata 2 (some 5) 20)

theorem rowAfterwards_sent (w : ℕ) :
    commandsOf w (received rowAfterwards) <+: (crossingSent rowRound w).flatMap (Round.commands w) := by
  match w with
  | 0 => decide
  | 1 => decide
  | 2 => decide
  | w + 3 => exact nil_prefix

theorem noUpdates_progresses : noUpdates.Progresses := by
  intro w fromToken uptoToken hmore
  exact absurd hmore Bool.false_ne_true

theorem rowAfterwards_undisturbed :
    (Handler.start (fun _ => 3)).UndisturbedRun crossingStream 0 rowAfterwards := by
  have hstep : ∀ {h h₁ : Handler ℕ ℕ} {action : Action ℕ ℕ} {actions : List (Action ℕ ℕ)},
      h.step crossingStream 0 action = some h₁ → h.Undisturbed crossingStream action →
      h₁.UndisturbedRun crossingStream 0 actions →
      h.UndisturbedRun crossingStream 0 (action :: actions) := by
    intro h h₁ action actions hrun hundisturbed hrest
    refine ⟨hundisturbed, fun h' hrun' => ?_⟩
    rw [← Option.some.inj (hrun.symm.trans hrun')]
    exact hrest
  refine hstep rfl trivial (hstep rfl trivial (hstep rfl trivial ?_))
  refine hstep rfl ?_ (hstep rfl ?_ (hstep rfl ?_ trivial))
  · intro w cmd queue hfrom _
    have hnone : none = some w := hfrom
    exact nomatch hnone
  · intro w cmd queue hfrom hqueue
    have hw : 1 = w := Option.some.inj hfrom
    have hcmd : Command.rdata 1 (some 4) 11 = cmd := (cons.inj hqueue).1
    exact .inl ⟨some 4, 11, by rw [← hcmd, ← hw]⟩
  · intro w cmd queue hfrom _
    have hnone : none = some w := hfrom
    exact nomatch hnone

theorem run_faithful_rowAfterwards :
    ∃ h, Handler.run crossingStream 0 (fun _ => 3) rowAfterwards = some h ∧
      ∀ w, w ≠ 0 → Faithful (crossingSent rowRound w) rowAfterwards w h := by
  refine run_faithful crossingStream 0 (fun _ => 3) (crossingSent rowRound) rowAfterwards
    (fun w _ => rowAfterwards_sent w) ?_ ?_
  · intro update hmem
    have hupdate : update = noUpdates := by
      simpa [rowAfterwards, threeCommands] using hmem
    rw [hupdate]
    exact noUpdates_progresses
  · exact rowAfterwards_undisturbed

end Synapse.Replication
