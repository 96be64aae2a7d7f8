import MiniRedis.Protocol.Value
import MiniRedis.Store.Call

/-!
# Command — Handlers

The thirty command handlers of `internal/cmd`.  A handler looks at its arguments and either
replies at once or makes one call of the store and renders what it returned; `Handler` is that
shape.  Arguments are whatever the client sent: one that is no bulk string reads as the empty
string, as `string(arg.Bulk)` does.
-/

namespace MiniRedis.Cmd

open Protocol Store

/-- What a handler does: reply, or make one store call and render its result. -/
inductive Handler where
  | reply (v : Value)
  | call (c : Call) (render : c.Result → Value)

/-! ### Replies (`registry.go`) -/

/-- The reply to a command that has nothing to report. -/
def okValue : Value := .simpleString (txt "OK")

/-- A status line. -/
def simpleStringValue (s : String) : Value := .simpleString (txt s)

/-- An error reply with its message. -/
def errorValue (msg : Bytes) : Value := .error msg

/-- An integer reply. -/
def integerValue (n : Int64) : Value := .integer n

/-- A yes or no, as the integers 1 and 0. -/
def boolReply (b : Bool) : Value := if b then integerValue 1 else integerValue 0

/-- A bulk string, or null for a nil slice. -/
def bulkValue (b : Option Bytes) : Value := .bulkString b

/-- The null bulk string: what was asked for is not there. -/
def nullBulkValue : Value := .bulkString none

/-- The error of every handler whose arguments are too few or too many. -/
def wrongArgs (name : String) : Value :=
  errorValue (txt "ERR wrong number of arguments for '" ++ txt name ++ txt "' command")

/-- An array reply. -/
def arrayValue (items : List Value) : Value := .array items

/-- The error of an argument that `strconv` does not read. -/
def notInteger : Value := errorValue (txt "ERR value is not an integer or out of range")

/-- An array of bulk strings. -/
def bulkArrayValue (items : List Bytes) : Value :=
  arrayValue (items.map fun b => bulkValue (some b))

/-- `replyForErr`; the store has the one error. -/
def replyForErr : StoreError → Value
  | .wrongType =>
      errorValue (txt "WRONGTYPE Operation against a key holding the wrong kind of value")

/-- Reply with the store's error, or with what the call returned. -/
def orErr {α : Type} (render : α → Value) : Outcome α → Value
  | .error err => replyForErr err
  | .ok a => render a

/-- A length or a number of keys, which Go holds in an `int`. -/
def countReply (n : Nat) : Value := integerValue (Int64.ofNat n)

/-- A value that may be missing: null when it is. -/
def optionReply : Option Bytes → Value
  | none => nullBulkValue
  | some v => bulkValue (some v)

/-! ### Connection and strings -/

/-- `PING [message]`: the message, or `PONG`. -/
def ping : List Value → Handler
  | [] => .reply (simpleStringValue "PONG")
  | [a] => .reply (bulkValue a.bulk)
  | _ => .reply (wrongArgs "ping")

/-- `ECHO message` -/
def echo : List Value → Handler
  | [a] => .reply (bulkValue a.bulk)
  | _ => .reply (wrongArgs "echo")

/-- `SET key value` -/
def set : List Value → Handler
  | [key, value] => .call (.set key.str value.str) fun _ => okValue
  | _ => .reply (wrongArgs "set")

/-- `GET key` -/
def get : List Value → Handler
  | [key] => .call (.get key.str) (orErr optionReply)
  | _ => .reply (wrongArgs "get")

/-! ### Keys -/

/-- `DEL key [key ...]`: the number of keys that were there. -/
def del : List Value → Handler
  | [] => .reply (wrongArgs "del")
  | args => .call (.del (args.map Value.str)) countReply

/-- `EXISTS key [key ...]`: a key named twice counts twice. -/
def «exists» : List Value → Handler
  | [] => .reply (wrongArgs "exists")
  | args => .call (.exists (args.map Value.str)) countReply

/-! ### Lists -/

/-- `LPUSH key value [value ...]`: the new length. -/
def lPush : List Value → Handler
  | key :: v :: vs => .call (.lPush key.str ((v :: vs).map Value.str)) (orErr countReply)
  | _ => .reply (wrongArgs "lpush")

/-- `RPUSH key value [value ...]`: the new length. -/
def rPush : List Value → Handler
  | key :: v :: vs => .call (.rPush key.str ((v :: vs).map Value.str)) (orErr countReply)
  | _ => .reply (wrongArgs "rpush")

/-- `LPOP key` -/
def lPop : List Value → Handler
  | [key] => .call (.lPop key.str) (orErr optionReply)
  | _ => .reply (wrongArgs "lpop")

/-- `RPOP key` -/
def rPop : List Value → Handler
  | [key] => .call (.rPop key.str) (orErr optionReply)
  | _ => .reply (wrongArgs "rpop")

/-- `LLEN key` -/
def lLen : List Value → Handler
  | [key] => .call (.lLen key.str) (orErr countReply)
  | _ => .reply (wrongArgs "llen")

/-- `LRANGE key start stop`.  The start is read before the stop. -/
def lRange : List Value → Handler
  | [key, start, stop] =>
      match parseInt start.str with
      | none => .reply notInteger
      | some lo =>
          match parseInt stop.str with
          | none => .reply notInteger
          | some hi => .call (.lRange key.str lo hi) (orErr bulkArrayValue)
  | _ => .reply (wrongArgs "lrange")

/-! ### Hashes -/

/-- The loop of `HSet` over its arguments, two at a time. -/
def pairUp : List Value → List (Bytes × Bytes)
  | f :: v :: rest => (f.str, v.str) :: pairUp rest
  | _ => []

/-- `HSET key field value [field value ...]`: the number of fields that are new. -/
def hSet (args : List Value) : Handler :=
  if args.length < 3 ∨ args.length % 2 = 0 then .reply (wrongArgs "hset")
  else
    match args with
    | [] => .reply (wrongArgs "hset")
    | key :: rest =>
        let pairs := pairUp rest
        .call (.hSet key.str (pairs.map Prod.fst) (pairs.map Prod.snd)) (orErr countReply)

/-- `HGET key field` -/
def hGet : List Value → Handler
  | [key, field] => .call (.hGet key.str field.str) (orErr optionReply)
  | _ => .reply (wrongArgs "hget")

/-- `HDEL key field [field ...]`: the number of fields that were there. -/
def hDel : List Value → Handler
  | key :: f :: fs => .call (.hDel key.str ((f :: fs).map Value.str)) (orErr countReply)
  | _ => .reply (wrongArgs "hdel")

/-- `HGETALL key`: every field, each before its value. -/
def hGetAll : List Value → Handler
  | [key] =>
      .call (.hGetAll key.str) <| orErr fun (fields, values) =>
        arrayValue ((fields.zip values).flatMap fun p =>
          [bulkValue (some p.1), bulkValue (some p.2)])
  | _ => .reply (wrongArgs "hgetall")

/-- `HKEYS key` -/
def hKeys : List Value → Handler
  | [key] => .call (.hKeys key.str) (orErr bulkArrayValue)
  | _ => .reply (wrongArgs "hkeys")

/-- `HVALS key` -/
def hVals : List Value → Handler
  | [key] => .call (.hVals key.str) (orErr bulkArrayValue)
  | _ => .reply (wrongArgs "hvals")

/-- `HLEN key` -/
def hLen : List Value → Handler
  | [key] => .call (.hLen key.str) (orErr countReply)
  | _ => .reply (wrongArgs "hlen")

/-! ### Sets -/

/-- `SADD key member [member ...]`: the number of members that are new. -/
def sAdd : List Value → Handler
  | key :: m :: ms => .call (.sAdd key.str ((m :: ms).map Value.str)) (orErr countReply)
  | _ => .reply (wrongArgs "sadd")

/-- `SREM key member [member ...]`: the number of members that were there. -/
def sRem : List Value → Handler
  | key :: m :: ms => .call (.sRem key.str ((m :: ms).map Value.str)) (orErr countReply)
  | _ => .reply (wrongArgs "srem")

/-- `SISMEMBER key member` -/
def sIsMember : List Value → Handler
  | [key, member] => .call (.sIsMember key.str member.str) (orErr boolReply)
  | _ => .reply (wrongArgs "sismember")

/-- `SMEMBERS key` -/
def sMembers : List Value → Handler
  | [key] => .call (.sMembers key.str) (orErr bulkArrayValue)
  | _ => .reply (wrongArgs "smembers")

/-- `SCARD key` -/
def sCard : List Value → Handler
  | [key] => .call (.sCard key.str) (orErr countReply)
  | _ => .reply (wrongArgs "scard")

/-! ### Deadlines -/

/-- `time.Second`, in nanoseconds. -/
def second : Duration := 1000000000

/-- `time.Millisecond`, in nanoseconds. -/
def millisecond : Duration := 1000000

theorem toInt_second : second.toInt = 1000000000 := by decide

theorem toInt_millisecond : millisecond.toInt = 1000000 := by decide

/-- `EXPIRE` and `PEXPIRE`: the product with the unit wraps, as int64 multiplication does. -/
def expireIn (name : String) (unit : Duration) : List Value → Handler
  | [key, n] =>
      match parseInt n.str with
      | none => .reply notInteger
      | some n => .call (.expire key.str (n * unit)) boolReply
  | _ => .reply (wrongArgs name)

/-- `EXPIRE key seconds` -/
def expire : List Value → Handler := expireIn "expire" second

/-- `PEXPIRE key milliseconds` -/
def pExpire : List Value → Handler := expireIn "pexpire" millisecond

/-- The time to live in the unit of the command, rounded to the nearest; -2 for an absent key, -1
for a persistent one. -/
def ttlReply (remaining : Duration) (exist hasTTL : Bool) (unit : Duration) : Int64 :=
  if !exist then -2 else if !hasTTL then -1 else (remaining + unit / 2) / unit

/-- `TTL` and `PTTL`. -/
def ttlIn (name : String) (unit : Duration) : List Value → Handler
  | [key] =>
      .call (.ttl key.str) fun (remaining, exist, hasTTL) =>
        integerValue (ttlReply remaining exist hasTTL unit)
  | _ => .reply (wrongArgs name)

/-- `TTL key`, in seconds. -/
def ttl : List Value → Handler := ttlIn "ttl" second

/-- `PTTL key`, in milliseconds. -/
def pTTL : List Value → Handler := ttlIn "pttl" millisecond

/-- `PERSIST key`: whether there was a deadline to clear. -/
def persist : List Value → Handler
  | [key] => .call (.persist key.str) boolReply
  | _ => .reply (wrongArgs "persist")

/-! ### Publishing -/

/-- `PUBLISH channel message`: the number of subscribers that got it. -/
def publish : List Value → Handler
  | [channel, payload] => .call (.publish channel.str payload.str) countReply
  | _ => .reply (wrongArgs "publish")

end MiniRedis.Cmd
