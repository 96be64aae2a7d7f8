import MiniRedis.Command.Handlers
import MiniRedis.Support.Strings

/-!
# Command — Dispatch

The command table, the write table and `Dispatch` (`internal/cmd/registry.go`).  `plan` is the
part of `Dispatch` that looks at the request only: the handler it selects, applied to the
arguments.  `dispatch` runs that plan over any store that answers calls, so the same function
serves the sharded store and a reference store.

* `plan_sound`, `plan_call`: a plan that makes a writing call is one for a name in the write
  table, and a reply to a call is an error only when the call failed.
* `dispatch_map`: a map between stores that respects calls respects `dispatch`.
-/

namespace MiniRedis.Cmd

open Protocol Store Strings

/-- The keys of the `commands` table. -/
inductive Command where
  | ping | echo | set | get | del | exists | lPush | rPush | lPop | rPop | lRange | lLen
  | hSet | hGet | hDel | hGetAll | hKeys | hVals | hLen | sAdd | sRem | sIsMember | sMembers
  | sCard | expire | pExpire | ttl | pTTL | persist | publish
deriving DecidableEq

namespace Command

/-- The thirty commands, in the order of the table in `registry.go`. -/
def all : List Command :=
  [.ping, .echo, .set, .get, .del, .exists, .lPush, .rPush, .lPop, .rPop, .lRange, .lLen, .hSet,
    .hGet, .hDel, .hGetAll, .hKeys, .hVals, .hLen, .sAdd, .sRem, .sIsMember, .sMembers, .sCard,
    .expire, .pExpire, .ttl, .pTTL, .persist, .publish]

/-- The name under which a command is registered, in upper case. -/
def name : Command → Bytes
  | .ping => txt "PING"
  | .echo => txt "ECHO"
  | .set => txt "SET"
  | .get => txt "GET"
  | .del => txt "DEL"
  | .exists => txt "EXISTS"
  | .lPush => txt "LPUSH"
  | .rPush => txt "RPUSH"
  | .lPop => txt "LPOP"
  | .rPop => txt "RPOP"
  | .lRange => txt "LRANGE"
  | .lLen => txt "LLEN"
  | .hSet => txt "HSET"
  | .hGet => txt "HGET"
  | .hDel => txt "HDEL"
  | .hGetAll => txt "HGETALL"
  | .hKeys => txt "HKEYS"
  | .hVals => txt "HVALS"
  | .hLen => txt "HLEN"
  | .sAdd => txt "SADD"
  | .sRem => txt "SREM"
  | .sIsMember => txt "SISMEMBER"
  | .sMembers => txt "SMEMBERS"
  | .sCard => txt "SCARD"
  | .expire => txt "EXPIRE"
  | .pExpire => txt "PEXPIRE"
  | .ttl => txt "TTL"
  | .pTTL => txt "PTTL"
  | .persist => txt "PERSIST"
  | .publish => txt "PUBLISH"

/-- The handler a command is registered with. -/
def handler : Command → List Value → Handler
  | .ping => Cmd.ping
  | .echo => Cmd.echo
  | .set => Cmd.set
  | .get => Cmd.get
  | .del => Cmd.del
  | .exists => Cmd.exists
  | .lPush => Cmd.lPush
  | .rPush => Cmd.rPush
  | .lPop => Cmd.lPop
  | .rPop => Cmd.rPop
  | .lRange => Cmd.lRange
  | .lLen => Cmd.lLen
  | .hSet => Cmd.hSet
  | .hGet => Cmd.hGet
  | .hDel => Cmd.hDel
  | .hGetAll => Cmd.hGetAll
  | .hKeys => Cmd.hKeys
  | .hVals => Cmd.hVals
  | .hLen => Cmd.hLen
  | .sAdd => Cmd.sAdd
  | .sRem => Cmd.sRem
  | .sIsMember => Cmd.sIsMember
  | .sMembers => Cmd.sMembers
  | .sCard => Cmd.sCard
  | .expire => Cmd.expire
  | .pExpire => Cmd.pExpire
  | .ttl => Cmd.ttl
  | .pTTL => Cmd.pTTL
  | .persist => Cmd.persist
  | .publish => Cmd.publish

end Command

/-- The lookup in the `commands` table, by upper-cased name. -/
def lookup (name : Bytes) : Option Command := Command.all.find? fun c => c.name = name

/-- `writeCommands`, the names whose requests are logged and propagated. -/
def writeCommands : List Bytes :=
  [txt "SET", txt "DEL", txt "LPUSH", txt "RPUSH", txt "LPOP", txt "RPOP", txt "HSET", txt "HDEL",
    txt "SADD", txt "SREM", txt "EXPIRE", txt "PEXPIRE", txt "PERSIST"]

/-- `IsWrite` -/
def isWrite (name : Bytes) : Bool := decide (toUpper name ∈ writeCommands)

/-- `commandName` of the server: the raw name of a request, empty when it has none. -/
def commandName (request : Value) : Bytes := (request.items.head?.map Value.str).getD []

/-- The error of a name that is not registered, as the client wrote it. -/
def unknownCommand (name : Bytes) : Value :=
  errorValue (txt "ERR unknown command '" ++ name ++ txt "'")

/-- What `Dispatch` does with a request, up to running it on a store. -/
def plan (request : Value) : Handler :=
  match request.items with
  | [] => .reply (errorValue (txt "ERR invalid request: expected a non-empty array"))
  | head :: args =>
      match lookup (toUpper head.str) with
      | none => .reply (unknownCommand (toUpper head.str))
      | some command => command.handler args

/-- Run a plan on a store that answers calls. -/
def Handler.run {σ : Type} (call : (c : Call) → σ → σ × c.Result) : Handler → σ → σ × Value
  | .reply v, s => (s, v)
  | .call c render, s => ((call c s).1, render (call c s).2)

/-- `Dispatch` -/
def dispatch {σ : Type} (call : (c : Call) → σ → σ × c.Result) (request : Value) (s : σ) :
    σ × Value :=
  (plan request).run call s

/-- Dispatch requests one after the other: the store reached and the replies. -/
def dispatchAll {σ : Type} (call : (c : Call) → σ → σ × c.Result) :
    List Value → σ → σ × List Value
  | [], s => (s, [])
  | request :: rest, s =>
      let (s, reply) := dispatch call request s
      let (s, replies) := dispatchAll call rest s
      (s, reply :: replies)

/-- `bulkCmd` of the compactor: a command as the array of bulk strings a client would send. -/
def bulkCmd (args : List Bytes) : Value := .array (args.map fun a => .bulkString (some a))

/-- A command of bulk strings has no simple string to break. -/
theorem bulkCmd_oneLine (args : List Bytes) : (bulkCmd args).OneLine := by
  refine oneLineItems_iff.2 fun v hv => ?_
  obtain ⟨a, -, rfl⟩ := List.mem_map.1 hv
  trivial

/-- A command of bulk strings fits if `make` serves its lengths, -/
theorem bulkCmd_fits {args : List Bytes} (hlen : args.length * valueSize ≤ maxAlloc)
    (h : ∀ a ∈ args, a.length + 2 ≤ maxAlloc) : (bulkCmd args).Fits := by
  refine ⟨by simpa using hlen, fitsItems_iff.2 fun v hv => ?_⟩
  obtain ⟨a, ha, rfl⟩ := List.mem_map.1 hv
  exact h a ha

/-- and is then well formed. -/
theorem bulkCmd_wellFormed {args : List Bytes} (hlen : args.length * valueSize ≤ maxAlloc)
    (h : ∀ a ∈ args, a.length + 2 ≤ maxAlloc) : (bulkCmd args).WellFormed :=
  (Value.wellFormed_iff _).2 ⟨bulkCmd_oneLine args, bulkCmd_fits hlen h⟩

/-! ### What a plan can do -/

/-- A command is found under its own name, -/
theorem lookup_eq_some {name : Bytes} {c : Command} (h : lookup name = some c) : c.name = name := by
  simpa using List.find?_some h

/-- and every command is found. -/
theorem lookup_name (c : Command) : lookup c.name = some c := by
  have hall : ∀ c ∈ Command.all, lookup c.name = some c := by decide +kernel
  exact hall c (by cases c <;> decide)

/-- The request names the command, in whatever letters, with these arguments. -/
def Names (c : Command) (args : List Value) (request : Value) : Prop :=
  ∃ head, request.items = head :: args ∧ toUpper head.str = c.name

/-- A request that names a command is handled by its handler. -/
theorem Names.plan_eq {c : Command} {args : List Value} {request : Value}
    (h : Names c args request) : plan request = c.handler args := by
  obtain ⟨head, hitems, hname⟩ := h
  simp only [plan, hitems, hname, lookup_name]

/-- Two replies to a call that differ at most in the order of an unordered collection: the
elements of a field, value or member list, the pairs of a whole hash. -/
def SameReply : Call → Value → Value → Prop
  | .hKeys _, v, w | .hVals _, v, w | .sMembers _, v, w =>
      v = w ∨ ∃ l l' : List Value, l.Perm l' ∧ v = .array l ∧ w = .array l'
  | .hGetAll _, v, w =>
      v = w ∨ ∃ l l' : List (Value × Value), l.Perm l' ∧
        v = .array (l.flatMap fun p => [p.1, p.2]) ∧ w = .array (l'.flatMap fun p => [p.1, p.2])
  | _, v, w => v = w

/-- What every rendering of a call's result keeps to. -/
structure Renders (c : Call) (render : c.Result → Value) : Prop where
  error : ∀ r, (render r).isError = true → c.failed r = true
  oneLine : ∀ r, (render r).OneLine
  same : ∀ r r', c.SameResult r r' → SameReply c (render r) (render r')

/-- What the call of the command `name` keeps to: it writes only if the write table says so, sets
deadlines only for the two commands that do, and fills no collection with nothing. -/
structure Allowed (name : Bytes) (c : Call) (render : c.Result → Value) : Prop where
  write : c.isWrite = true → name ∈ writeCommands
  expire : c.isExpire = true → name = txt "EXPIRE" ∨ name = txt "PEXPIRE"
  filled : c.Filled
  renders : Renders c render

section Allowed

variable {name : Bytes} {c : Call} {render : c.Result → Value}

/-- A rendering that never makes an error. -/
theorem Renders.error_of_not (h : ∀ r, (render r).isError = false) (r : c.Result)
    (hr : (render r).isError = true) : c.failed r = true := by
  rw [h r] at hr
  cases hr

/-- A call that neither writes nor sets deadlines. -/
theorem Allowed.read (hwrite : c.isWrite = false) (hexpire : c.isExpire = false)
    (hfilled : c.Filled) (hrenders : Renders c render) : Allowed name c render := by
  refine ⟨fun h => ?_, fun h => ?_, hfilled, hrenders⟩
  · rw [hwrite] at h
    cases h
  · rw [hexpire] at h
    cases h

/-- A call of a write command that sets no deadline. -/
theorem Allowed.update (hname : name ∈ writeCommands) (hexpire : c.isExpire = false)
    (hfilled : c.Filled) (hrenders : Renders c render) : Allowed name c render := by
  refine ⟨fun _ => hname, fun h => ?_, hfilled, hrenders⟩
  rw [hexpire] at h
  cases h

end Allowed

/-- What every plan for the command `name` keeps to. -/
def Handler.Sound (name : Bytes) : Handler → Prop
  | .reply v => v.OneLine
  | .call c render => Allowed name c render

/-! ### Renderings -/

section Renderings

variable {α : Type} {render : α → Value}

/-- A reply is an error only where the store returned one. -/
theorem orErr_isError (h : ∀ a, (render a).isError = false) (r : Outcome α)
    (hr : (orErr render r).isError = true) : (!r.isOk) = true := by
  cases r with
  | error => rfl
  | ok a => rw [orErr, h a] at hr; cases hr

theorem orErr_oneLine (h : ∀ a, (render a).OneLine) : ∀ r : Outcome α, (orErr render r).OneLine
  | .error .wrongType => by simp only [orErr, replyForErr, errorValue, Value.OneLine]; decide
  | .ok a => h a

theorem boolReply_isError (b : Bool) : (boolReply b).isError = false := by cases b <;> rfl

theorem boolReply_oneLine (b : Bool) : (boolReply b).OneLine := by cases b <;> trivial

theorem optionReply_isError (o : Option Bytes) : (optionReply o).isError = false := by
  cases o <;> rfl

theorem optionReply_oneLine (o : Option Bytes) : (optionReply o).OneLine := by cases o <;> trivial

theorem bulkArrayValue_oneLine (l : List Bytes) : (bulkArrayValue l).OneLine := by
  refine oneLineItems_iff.2 fun v hv => ?_
  obtain ⟨b, -, rfl⟩ := List.mem_map.1 hv
  trivial

/-- Lists in another order make replies in another order. -/
theorem bulkArrayValue_same {r r' : Outcome (List Bytes)} (h : Outcome.Rel List.Perm r r') :
    orErr bulkArrayValue r = orErr bulkArrayValue r' ∨
      ∃ l l' : List Value, l.Perm l' ∧ orErr bulkArrayValue r = .array l ∧
        orErr bulkArrayValue r' = .array l' := by
  cases r with
  | error e => cases r' with
    | error e' => exact .inl (by rw [show e = e' from h])
    | ok => exact h.elim
  | ok l => cases r' with
    | error => exact h.elim
    | ok l' => exact .inr ⟨_, _, List.Perm.map _ h, rfl, rfl⟩

theorem wrongArgs_oneLine {name : String} (h : (10 : UInt8) ∉ txt name) :
    (wrongArgs name).OneLine := by
  simp only [wrongArgs, errorValue, Value.OneLine, List.mem_append, not_or]
  exact ⟨⟨by decide, h⟩, by decide⟩

theorem notInteger_oneLine : notInteger.OneLine := by
  simp only [notInteger, errorValue, Value.OneLine]
  decide

end Renderings

/-- The reply of `HGETALL` is the same up to the order of its pairs. -/
theorem hGetAll_renders (key : Bytes) :
    Renders (.hGetAll key) (orErr fun (fields, values) =>
      arrayValue ((fields.zip values).flatMap fun p =>
        [bulkValue (some p.1), bulkValue (some p.2)]))
    where
  error := orErr_isError fun _ => rfl
  oneLine := by
    refine orErr_oneLine fun r => oneLineItems_iff.2 fun v hv => ?_
    obtain ⟨p, -, hp⟩ := List.mem_flatMap.1 hv
    rcases List.mem_pair.1 hp with rfl | rfl <;> trivial
  same r r' h := by
    cases r with
    | error e => cases r' with
      | error e' => exact .inl (by rw [show e = e' from h])
      | ok => exact False.elim h
    | ok p => cases r' with
      | error => exact False.elim h
      | ok q =>
          refine .inr ⟨(p.1.zip p.2).map fun x => (bulkValue (some x.1), bulkValue (some x.2)),
            (q.1.zip q.2).map fun x => (bulkValue (some x.1), bulkValue (some x.2)),
            List.Perm.map _ h, ?_, ?_⟩ <;>
          simp [orErr, arrayValue, List.flatMap_map]

/-- **Every handler keeps to its table entry**, whatever its arguments are. -/
theorem handler_sound (c : Command) (args : List Value) :
    (c.handler args).Sound c.name := by
  cases c with
  | ping =>
      simp only [Command.handler, ping]
      split
      · simp only [Handler.Sound, simpleStringValue, Value.OneLine]; decide
      · trivial
      · exact wrongArgs_oneLine (by decide)
  | echo =>
      simp only [Command.handler, echo]
      split
      · trivial
      · exact wrongArgs_oneLine (by decide)
  | set =>
      simp only [Command.handler, set]
      split
      · refine .update (by decide) rfl trivial ⟨Renders.error_of_not fun _ => rfl, fun _ => ?_,
          fun _ _ _ => rfl⟩
        simp only [okValue, Value.OneLine]
        decide
      · exact wrongArgs_oneLine (by decide)
  | get | hGet =>
      simp only [Command.handler, get, hGet]
      split
      · exact .read rfl rfl trivial ⟨orErr_isError optionReply_isError,
          orErr_oneLine optionReply_oneLine, fun _ _ => congrArg _⟩
      · exact wrongArgs_oneLine (by decide)
  | lPop | rPop =>
      simp only [Command.handler, lPop, rPop]
      split
      · exact .update (by decide) rfl trivial ⟨orErr_isError optionReply_isError,
          orErr_oneLine optionReply_oneLine, fun _ _ => congrArg _⟩
      · exact wrongArgs_oneLine (by decide)
  | del =>
      simp only [Command.handler, del]
      split
      · exact wrongArgs_oneLine (by decide)
      · exact .update (by decide) rfl trivial ⟨Renders.error_of_not fun _ => rfl,
          fun _ => trivial, fun _ _ => congrArg _⟩
  | «exists» =>
      simp only [Command.handler, «exists»]
      split
      · exact wrongArgs_oneLine (by decide)
      · exact .read rfl rfl trivial ⟨Renders.error_of_not fun _ => rfl,
          fun _ => trivial, fun _ _ => congrArg _⟩
  | lPush | rPush | sAdd =>
      simp only [Command.handler, lPush, rPush, sAdd]
      split
      · exact .update (by decide) rfl (List.cons_ne_nil _ _) ⟨orErr_isError fun _ => rfl,
          orErr_oneLine fun _ => trivial, fun _ _ => congrArg _⟩
      · exact wrongArgs_oneLine (by decide)
  | hDel | sRem =>
      simp only [Command.handler, hDel, sRem]
      split
      · exact .update (by decide) rfl trivial ⟨orErr_isError fun _ => rfl,
          orErr_oneLine fun _ => trivial, fun _ _ => congrArg _⟩
      · exact wrongArgs_oneLine (by decide)
  | lLen | hLen | sCard =>
      simp only [Command.handler, lLen, hLen, sCard]
      split
      · exact .read rfl rfl trivial ⟨orErr_isError fun _ => rfl, orErr_oneLine fun _ => trivial,
          fun _ _ => congrArg _⟩
      · exact wrongArgs_oneLine (by decide)
  | hKeys | hVals | sMembers =>
      simp only [Command.handler, hKeys, hVals, sMembers]
      split
      · exact .read rfl rfl trivial ⟨orErr_isError fun _ => rfl,
          orErr_oneLine bulkArrayValue_oneLine, fun _ _ => bulkArrayValue_same⟩
      · exact wrongArgs_oneLine (by decide)
  | hGetAll =>
      simp only [Command.handler, hGetAll]
      split
      · exact .read rfl rfl trivial (hGetAll_renders _)
      · exact wrongArgs_oneLine (by decide)
  | sIsMember =>
      simp only [Command.handler, sIsMember]
      split
      · exact .read rfl rfl trivial ⟨orErr_isError boolReply_isError,
          orErr_oneLine boolReply_oneLine, fun _ _ => congrArg _⟩
      · exact wrongArgs_oneLine (by decide)
  | lRange =>
      simp only [Command.handler, lRange]
      split
      · split
        · exact notInteger_oneLine
        · split
          · exact notInteger_oneLine
          · exact .read rfl rfl trivial ⟨orErr_isError fun _ => rfl,
              orErr_oneLine bulkArrayValue_oneLine, fun _ _ => congrArg _⟩
      · exact wrongArgs_oneLine (by decide)
  | hSet =>
      simp only [Command.handler, hSet]
      split
      · exact wrongArgs_oneLine (by decide)
      · split
        · exact wrongArgs_oneLine (by decide)
        · rename_i key rest hlen
          refine .update (by decide) rfl ?_ ⟨orErr_isError fun _ => rfl,
            orErr_oneLine fun _ => trivial, fun _ _ => congrArg _⟩
          rcases rest with _ | ⟨_, _ | ⟨_, _⟩⟩
          · simp at hlen
          · simp at hlen
          · simp [Call.Filled, pairUp]
  | expire | pExpire =>
      simp only [Command.handler, expire, pExpire, expireIn]
      split
      · split
        · exact notInteger_oneLine
        · exact ⟨fun _ => by decide, fun _ => by decide, trivial,
            Renders.error_of_not boolReply_isError, boolReply_oneLine, fun _ _ => congrArg _⟩
      · exact wrongArgs_oneLine (by decide)
  | persist =>
      simp only [Command.handler, persist]
      split
      · exact .update (by decide) rfl trivial ⟨Renders.error_of_not boolReply_isError,
          boolReply_oneLine, fun _ _ => congrArg _⟩
      · exact wrongArgs_oneLine (by decide)
  | ttl | pTTL =>
      simp only [Command.handler, ttl, pTTL, ttlIn]
      split
      · refine .read rfl rfl trivial ⟨Renders.error_of_not fun _ => rfl, fun _ => trivial,
          fun r r' h => ?_⟩
        cases (h : r = r')
        rfl
      · exact wrongArgs_oneLine (by decide)
  | publish =>
      simp only [Command.handler, publish]
      split
      · exact .read rfl rfl trivial ⟨Renders.error_of_not fun _ => rfl,
          fun _ => trivial, fun _ _ => congrArg _⟩
      · exact wrongArgs_oneLine (by decide)

/-- The request names a command that is not in the table. -/
def Unknown (request : Value) : Prop :=
  request.items ≠ [] ∧ lookup (toUpper (commandName request)) = none

instance (request : Value) : Decidable (Unknown request) :=
  inferInstanceAs (Decidable (_ ∧ _))

/-- An unknown name is quoted in upper case. -/
theorem plan_unknown {request : Value} (h : Unknown request) :
    plan request = .reply (unknownCommand (toUpper (commandName request))) := by
  obtain ⟨hne, hl⟩ := h
  unfold plan
  cases hi : request.items with
  | nil => exact absurd hi hne
  | cons head args =>
      simp only [commandName, hi, List.head?_cons, Option.map_some, Option.getD_some] at hl ⊢
      rw [hl]

/-- **Every plan but that of an unknown command is sound** for the name it goes by. -/
theorem plan_sound {request : Value} (h : ¬ Unknown request) :
    (plan request).Sound (toUpper (commandName request)) := by
  unfold plan
  cases hi : request.items with
  | nil => simp only [Handler.Sound, errorValue, Value.OneLine]; decide
  | cons head args =>
      simp only [Unknown, commandName, hi, List.head?_cons, Option.map_some, Option.getD_some]
        at h ⊢
      cases hl : lookup (toUpper head.str) with
      | none => exact absurd ⟨List.cons_ne_nil _ _, hl⟩ h
      | some c =>
          have hc := handler_sound c args
          rwa [lookup_eq_some hl] at hc

/-- A handler makes only calls that go with its command's name. -/
theorem plan_call {request : Value} {c : Call} {render : c.Result → Value}
    (h : plan request = .call c render) : Allowed (toUpper (commandName request)) c render := by
  by_cases hu : Unknown request
  · rw [plan_unknown hu] at h; cases h
  · have hs := plan_sound hu
    rwa [h] at hs

/-! ### Dispatching on related stores -/

section Map

variable {σ τ : Type} {call : (c : Call) → σ → σ × c.Result} {call' : (c : Call) → τ → τ × c.Result}

/-- A map between stores that respects calls respects `dispatch`. -/
theorem dispatch_map (f : σ → τ) (h : ∀ c s, call' c (f s) = (f (call c s).1, (call c s).2))
    (request : Value) (s : σ) :
    dispatch call' request (f s) =
      (f (dispatch call request s).1, (dispatch call request s).2) := by
  unfold dispatch
  cases plan request with
  | reply v => rfl
  | call c render => simp only [Handler.run, h]

/-- A simulation of the calls is one of the requests. -/
theorem dispatchAll_map (f : σ → τ) (h : ∀ c s, call' c (f s) = (f (call c s).1, (call c s).2)) :
    ∀ (requests : List Value) (s : σ), dispatchAll call' requests (f s) =
      (f (dispatchAll call requests s).1, (dispatchAll call requests s).2)
  | [], _ => rfl
  | request :: rest, s => by
      simp only [dispatchAll, dispatch_map f h, dispatchAll_map f h rest]

theorem dispatchAll_append : ∀ (as bs : List Value) (s : σ), dispatchAll call (as ++ bs) s =
    ((dispatchAll call bs (dispatchAll call as s).1).1,
      (dispatchAll call as s).2 ++ (dispatchAll call bs (dispatchAll call as s).1).2)
  | [], _, _ => rfl
  | a :: as, bs, s => by simp [dispatchAll, dispatchAll_append as bs]

theorem dispatchAll_fst : ∀ (requests : List Value) (s : σ), (dispatchAll call requests s).1 =
    requests.foldl (fun s request => (dispatch call request s).1) s
  | [], _ => rfl
  | _ :: rest, _ => dispatchAll_fst rest _

end Map

end MiniRedis.Cmd
