import Kiwi.Storage.Hashes
import Kiwi.Storage.Lists
import Kiwi.Storage.Sets
import Kiwi.Storage.Strings
import Kiwi.Storage.Zsets

/-!
# The operations of an instance

What can be asked of one instance, as data: an operation with its arguments, indexed by the type of
its answer, and `Operation.run`, the program that carries it out at a reading of the clock. Results
about runs of arbitrary operations quantify over these types.

Iteration over the whole key space with cursors (`SCAN`) belongs to the storage above the instances,
and flushing is left out.
-/

namespace Kiwi

variable {S α : Type}

/-- An operation that only reads. -/
def read [LinearOrder S] (f : Redis S → Except Error α) : Op S α := do
  let db ← get
  f db

/-- String and keyspace operations. -/
inductive Strings.Operation (S : Type) : Type → Type
  | keyEtime (key : Bytes) : Operation S (Option ℕ)
  | setKeyEtime (key : Bytes) (etime : ℕ) : Operation S Bool
  | getKeyType (key : Bytes) : Operation S DataType
  | keyExistsLive (key : Bytes) : Operation S Bool
  | delKey (key : Bytes) : Operation S Bool
  | scanKeys (pattern : Bytes) : Operation S (List Bytes)
  | randomKey : Operation S (Option Bytes)
  | strlen (key : Bytes) : Operation S ℤ
  | getrange (key : Bytes) (start stop : ℤ) : Operation S Bytes
  | getBinary (key : Bytes) : Operation S Bytes
  | get (key : Bytes) : Operation S Bytes
  | mgetBinary (keys : List Bytes) : Operation S (List (Option Bytes))
  | mget (keys : List Bytes) : Operation S (List (Option Bytes))
  | setrangeWithOutcome (key : Bytes) (offset : ℤ) (value : Bytes) : Operation S (ℤ × Bool)
  | setrange (key : Bytes) (offset : ℤ) (value : Bytes) : Operation S ℤ
  | append (key value : Bytes) : Operation S ℤ
  | set (key value : Bytes) : Operation S PUnit
  | setex (key : Bytes) (seconds : ℤ) (value : Bytes) : Operation S PUnit
  | psetex (key : Bytes) (milliseconds : ℤ) (value : Bytes) : Operation S PUnit
  | setnx (key value : Bytes) : Operation S ℤ
  | getset (key value : Bytes) : Operation S (Option Bytes)
  | mset (kvs : List (Bytes × Bytes)) : Operation S PUnit
  | msetnx (kvs : List (Bytes × Bytes)) : Operation S Bool
  | incrDecr (key : Bytes) (incr : ℤ) : Operation S ℤ
  | incrDecrFloat (key : Bytes) (incr : S) : Operation S S
  | setbit (key : Bytes) (offset value : ℤ) : Operation S ℤ
  | getbit (key : Bytes) (offset : ℤ) : Operation S ℤ
  | bitcount (key : Bytes) (start stop : Option ℤ) : Operation S ℤ
  | bitpos (key : Bytes) (bit : ℤ) (start stop : Option ℤ) (isBitMode : Bool) : Operation S ℤ
  | bitop (operation destKey : Bytes) (srcKeys : List Bytes) : Operation S ℤ

/-- List operations. -/
inductive Lists.Operation : Type → Type
  | lpush (key : Bytes) (values : List Bytes) : Operation ℤ
  | rpush (key : Bytes) (values : List Bytes) : Operation ℤ
  | lpushx (key : Bytes) (values : List Bytes) : Operation ℤ
  | rpushx (key : Bytes) (values : List Bytes) : Operation ℤ
  | lpop (key : Bytes) (count : Option ℕ) : Operation (Option (List Bytes))
  | rpop (key : Bytes) (count : Option ℕ) : Operation (Option (List Bytes))
  | llen (key : Bytes) : Operation ℤ
  | lindex (key : Bytes) (index : ℤ) : Operation (Option Bytes)
  | lrange (key : Bytes) (start stop : ℤ) : Operation (List Bytes)
  | lset (key : Bytes) (index : ℤ) (value : Bytes) : Operation PUnit
  | ltrim (key : Bytes) (start stop : ℤ) : Operation PUnit
  | lrem (key : Bytes) (count : ℤ) (value : Bytes) : Operation ℤ
  | linsert (key : Bytes) (beforeOrAfter : BeforeOrAfter) (pivot value : Bytes) : Operation ℤ
  | rpoplpush (source destination : Bytes) : Operation (Option Bytes)

/-- Hash operations. -/
inductive Hashes.Operation (S : Type) : Type → Type
  | hsetWithOutcome (key field value : Bytes) : Operation S (ℤ × Bool)
  | hset (key field value : Bytes) : Operation S ℤ
  | hsetnx (key field value : Bytes) : Operation S ℤ
  | hincrby (key field : Bytes) (increment : ℤ) : Operation S ℤ
  | hincrbyfloat (key field : Bytes) (increment : S) : Operation S S
  | hmset (key : Bytes) (fieldValues : List (Bytes × Bytes)) : Operation S PUnit
  | hdel (key : Bytes) (fields : List Bytes) : Operation S ℤ
  | hget (key field : Bytes) : Operation S (Option Bytes)
  | hexists (key field : Bytes) : Operation S Bool
  | hstrlen (key field : Bytes) : Operation S ℤ
  | hgetall (key : Bytes) : Operation S (List (Bytes × Bytes))
  | hkeys (key : Bytes) : Operation S (List Bytes)
  | hvals (key : Bytes) : Operation S (List Bytes)
  | hlen (key : Bytes) : Operation S ℤ
  | hmget (key : Bytes) (fields : List Bytes) : Operation S (List (Option Bytes))
  | hscan (key : Bytes) (cursor : ℕ) (pattern : Option Bytes) (count : Option ℕ) :
      Operation S (ℕ × List (Bytes × Bytes))

/-- Set operations. -/
inductive Sets.Operation : Type → Type
  | sadd (key : Bytes) (members : List Bytes) : Operation ℤ
  | srem (key : Bytes) (members : List Bytes) : Operation ℤ
  | spop (rng : Rng) (key : Bytes) (count : Option ℤ) : Operation (List Bytes)
  | smove (source destination member : Bytes) : Operation Bool
  | scard (key : Bytes) : Operation ℤ
  | smembers (key : Bytes) : Operation (List Bytes)
  | sismember (key member : Bytes) : Operation Bool
  | smismember (key : Bytes) (members : List Bytes) : Operation (List Bool)
  | srandmember (rng : Rng) (key : Bytes) (count : Option ℤ) : Operation (List Bytes)
  | sscan (key : Bytes) (cursor : ℕ) (pattern : Option Bytes) (count : Option ℕ) :
      Operation (ℕ × List Bytes)
  | sdiff (keys : List Bytes) : Operation (List Bytes)
  | sinter (keys : List Bytes) : Operation (List Bytes)
  | sunion (keys : List Bytes) : Operation (List Bytes)
  | sdiffstore (destination : Bytes) (keys : List Bytes) : Operation ℤ
  | sinterstore (destination : Bytes) (keys : List Bytes) : Operation ℤ
  | sunionstore (destination : Bytes) (keys : List Bytes) : Operation ℤ

/-- Zset operations. -/
inductive Zsets.Operation (S : Type) : Type → Type
  | zadd (key : Bytes) (scoreMembers : List (ScoreMember S)) : Operation S ℤ
  | zincrby (key : Bytes) (increment : S) (member : Bytes) : Operation S Bytes
  | zrem (key : Bytes) (members : List Bytes) : Operation S ℤ
  | zremrangebylex (key min max : Bytes) : Operation S ℤ
  | zremrangebyrank (key : Bytes) (start stop : ℤ) : Operation S ℤ
  | zremrangebyscore (key : Bytes) (minScore maxScore : S) : Operation S ℤ
  | zcard (key : Bytes) : Operation S ℤ
  | zcount (key : Bytes) (minScore maxScore : S) : Operation S ℤ
  | zscore (key member : Bytes) : Operation S (Option Bytes)
  | zmscore (key : Bytes) (members : List Bytes) : Operation S (List (Option Bytes))
  | zrank (key member : Bytes) : Operation S (Option ℤ)
  | zrevrank (key member : Bytes) : Operation S (Option ℤ)
  | zlexcount (key min max : Bytes) : Operation S ℤ
  | zrange (key : Bytes) (start stop : ℤ) (withScores : Bool) : Operation S (List Bytes)
  | zrevrange (key : Bytes) (start stop : ℤ) (withScores : Bool) : Operation S (List Bytes)
  | zrangebylex (key min max : Bytes) (offset count : Option ℤ) : Operation S (List Bytes)
  | zrangebyscore (key : Bytes) (minScore maxScore : S) (withScores : Bool)
      (offset count : Option ℤ) : Operation S (List Bytes)
  | zrevrangebyscore (key : Bytes) (maxScore minScore : S) (withScores : Bool)
      (offset count : Option ℤ) : Operation S (List Bytes)
  | zscan (key : Bytes) (cursor : ℕ) (pattern : Option Bytes) (count : Option ℕ) :
      Operation S (ℕ × List (Bytes × Bytes))
  | zinterstore (destination : Bytes) (keys : List Bytes) (weights : List S) (aggregate : Bytes) :
      Operation S ℤ
  | zunionstore (destination : Bytes) (keys : List Bytes) (weights : List S) (aggregate : Bytes) :
      Operation S ℤ

/-- An operation of an instance, with an answer of type `α`. -/
inductive Operation (S α : Type)
  | string (o : Strings.Operation S α)
  | list (o : Lists.Operation α)
  | hash (o : Hashes.Operation S α)
  | set (o : Sets.Operation α)
  | zset (o : Zsets.Operation S α)

variable [Score S]

/-- The program of a string or keyspace operation. -/
def Strings.Operation.run (now : ℕ) : Strings.Operation S α → Op S α
  | keyEtime key => read fun db ↦ .ok (Strings.keyEtime db key now)
  | setKeyEtime key etime => Strings.setKeyEtime key etime now
  | getKeyType key => read fun db ↦ Strings.getKeyType db key now
  | keyExistsLive key => read fun db ↦ .ok (Strings.keyExistsLive db key now)
  | delKey key => Strings.delKey key now
  | scanKeys pattern => read fun db ↦ .ok (Strings.scanKeys db pattern now)
  | randomKey => read fun db ↦ .ok (Strings.randomKey db now)
  | strlen key => read fun db ↦ Strings.strlen db key now
  | getrange key start stop => read fun db ↦ Strings.getrange db key start stop now
  | getBinary key => read fun db ↦ Strings.getBinary db key now
  | get key => read fun db ↦ Strings.get db key now
  | mgetBinary keys => read fun db ↦ .ok (Strings.mgetBinary db keys now)
  | mget keys => read fun db ↦ .ok (Strings.mget db keys now)
  | setrangeWithOutcome key offset value => Strings.setrangeWithOutcome key offset value now
  | setrange key offset value => Strings.setrange key offset value now
  | append key value => Strings.append key value now
  | set key value => Strings.set key value now
  | setex key seconds value => Strings.setex key seconds value now
  | psetex key milliseconds value => Strings.psetex key milliseconds value now
  | setnx key value => Strings.setnx key value now
  | getset key value => Strings.getset key value now
  | mset kvs => Strings.mset kvs now
  | msetnx kvs => Strings.msetnx kvs now
  | incrDecr key incr => Strings.incrDecr key incr now
  | incrDecrFloat key incr => Strings.incrDecrFloat key incr now
  | setbit key offset value => Strings.setbit key offset value now
  | getbit key offset => read fun db ↦ Strings.getbit db key offset now
  | bitcount key start stop => read fun db ↦ Strings.bitcount db key start stop now
  | bitpos key bit start stop isBitMode =>
    read fun db ↦ Strings.bitpos db key bit start stop isBitMode now
  | bitop operation destKey srcKeys => Strings.bitop operation destKey srcKeys now

/-- The program of a list operation. -/
def Lists.Operation.run (now : ℕ) : Lists.Operation α → Op S α
  | lpush key values => Lists.lpush key values now
  | rpush key values => Lists.rpush key values now
  | lpushx key values => Lists.lpushx key values now
  | rpushx key values => Lists.rpushx key values now
  | lpop key count => Lists.lpop key count now
  | rpop key count => Lists.rpop key count now
  | llen key => read fun db ↦ Lists.llen db key now
  | lindex key index => read fun db ↦ Lists.lindex db key index now
  | lrange key start stop => read fun db ↦ Lists.lrange db key start stop now
  | lset key index value => Lists.lset key index value now
  | ltrim key start stop => Lists.ltrim key start stop now
  | lrem key count value => Lists.lrem key count value now
  | linsert key beforeOrAfter pivot value => Lists.linsert key beforeOrAfter pivot value now
  | rpoplpush source destination => Lists.rpoplpush source destination now

/-- The program of a hash operation. -/
def Hashes.Operation.run (now : ℕ) : Hashes.Operation S α → Op S α
  | hsetWithOutcome key field value => Hashes.hsetWithOutcome key field value now
  | hset key field value => Hashes.hset key field value now
  | hsetnx key field value => Hashes.hsetnx key field value now
  | hincrby key field increment => Hashes.hincrby key field increment now
  | hincrbyfloat key field increment => Hashes.hincrbyfloat key field increment now
  | hmset key fieldValues => Hashes.hmset key fieldValues now
  | hdel key fields => Hashes.hdel key fields now
  | hget key field => read fun db ↦ Hashes.hget db key field now
  | hexists key field => read fun db ↦ Hashes.hexists db key field now
  | hstrlen key field => read fun db ↦ Hashes.hstrlen db key field now
  | hgetall key => read fun db ↦ Hashes.hgetall db key now
  | hkeys key => read fun db ↦ Hashes.hkeys db key now
  | hvals key => read fun db ↦ Hashes.hvals db key now
  | hlen key => read fun db ↦ Hashes.hlen db key now
  | hmget key fields => read fun db ↦ Hashes.hmget db key fields now
  | hscan key cursor pattern count => Hashes.hscan key cursor pattern count now

/-- The program of a set operation. -/
def Sets.Operation.run (now : ℕ) : Sets.Operation α → Op S α
  | sadd key members => Sets.sadd key members now
  | srem key members => Sets.srem key members now
  | spop rng key count => Sets.spop rng key count now
  | smove source destination member => Sets.smove source destination member now
  | scard key => read fun db ↦ Sets.scard db key now
  | smembers key => read fun db ↦ Sets.smembers db key now
  | sismember key member => read fun db ↦ Sets.sismember db key member now
  | smismember key members => read fun db ↦ Sets.smismember db key members now
  | srandmember rng key count => read fun db ↦ Sets.srandmember rng db key count now
  | sscan key cursor pattern count => read fun db ↦ Sets.sscan db key cursor pattern count now
  | sdiff keys => read fun db ↦ Sets.sdiff db keys now
  | sinter keys => read fun db ↦ Sets.sinter db keys now
  | sunion keys => read fun db ↦ Sets.sunion db keys now
  | sdiffstore destination keys => Sets.sdiffstore destination keys now
  | sinterstore destination keys => Sets.sinterstore destination keys now
  | sunionstore destination keys => Sets.sunionstore destination keys now

/-- The program of a zset operation. -/
def Zsets.Operation.run (now : ℕ) : Zsets.Operation S α → Op S α
  | zadd key scoreMembers => Zsets.zadd key scoreMembers now
  | zincrby key increment member => Zsets.zincrby key increment member now
  | zrem key members => Zsets.zrem key members now
  | zremrangebylex key min max => Zsets.zremrangebylex key min max now
  | zremrangebyrank key start stop => Zsets.zremrangebyrank key start stop now
  | zremrangebyscore key minScore maxScore => Zsets.zremrangebyscore key minScore maxScore now
  | zcard key => read fun db ↦ Zsets.zcard db key now
  | zcount key minScore maxScore => read fun db ↦ Zsets.zcount db key minScore maxScore now
  | zscore key member => read fun db ↦ Zsets.zscore db key member now
  | zmscore key members => read fun db ↦ Zsets.zmscore db key members now
  | zrank key member => read fun db ↦ Zsets.zrank db key member now
  | zrevrank key member => read fun db ↦ Zsets.zrevrank db key member now
  | zlexcount key min max => read fun db ↦ Zsets.zlexcount db key min max now
  | zrange key start stop withScores => read fun db ↦ Zsets.zrange db key start stop withScores now
  | zrevrange key start stop withScores =>
    read fun db ↦ Zsets.zrevrange db key start stop withScores now
  | zrangebylex key min max offset count =>
    read fun db ↦ Zsets.zrangebylex db key min max offset count now
  | zrangebyscore key minScore maxScore withScores offset count =>
    read fun db ↦ Zsets.zrangebyscore db key minScore maxScore withScores offset count now
  | zrevrangebyscore key maxScore minScore withScores offset count =>
    read fun db ↦ Zsets.zrevrangebyscore db key maxScore minScore withScores offset count now
  | zscan key cursor pattern count => read fun db ↦ Zsets.zscan db key cursor pattern count now
  | zinterstore destination keys weights aggregate =>
    Zsets.zinterstore destination keys weights aggregate now
  | zunionstore destination keys weights aggregate =>
    Zsets.zunionstore destination keys weights aggregate now

/-- The program of an operation at a reading of the clock. -/
def Operation.run (now : ℕ) : Operation S α → Op S α
  | string o => o.run now
  | list o => o.run now
  | hash o => o.run now
  | set o => o.run now
  | zset o => o.run now

end Kiwi
