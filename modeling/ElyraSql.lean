import ElyraSql.Replication.Recovery
import ElyraSql.Replication.Acks
import ElyraSql.Replication.Convergence
import ElyraSql.Session.Serializable
import ElyraSql.Schema.Freshness
import ElyraSql.Raft.MatchIndex
import ElyraSql.Raft.Answers
import ElyraSql.Raft.Durability
import ElyraSql.Raft.Contiguity
import ElyraSql.Raft.Applying
import ElyraSql.Wire.Framing
import ElyraSql.Wire.Params
import ElyraSql.Server.Injection
import ElyraSql.Engine.Keyspaces
import ElyraSql.Accounts.Leaks
import ElyraSql.Locks.Exclusion
import ElyraSql.Session.Savepoints
import ElyraSql.Counters.Watermarks
import ElyraSql.Engine.UpsertInvariants
import ElyraSql.Joins.CombineAgreement
import ElyraSql.Engine.ZoneMap
import ElyraSql.Engine.SubqueryLiterals
import ElyraSql.Engine.SetOperations
import ElyraSql.Engine.Like
import ElyraSql.Olap.BitAggregates
import ElyraSql.Engine.JsonPath
