import Synapse.Util.Dict
import Synapse.Util.Paging
import Synapse.Util.Select

/-!
# The rows of new events

What the replication streams of events read of the database: `events`, with what other tables have
about an event, and `ex_outlier_stream`, which has a stream ID of its own for each event that was an
outlier and is one no longer.

An event that is backfilled, or ceases to be an outlier by being backfilled, has a negative stream ID;
the replication stream of these events counts in positive numbers.
-/

namespace Synapse.Storage

open Synapse.Util

/-- What the streams read of a row of `events`. -/
structure EventsRow where
  eventId : String
  streamOrdering : ℤ
  roomId : String
  type : String
  instanceName : Option String
  outlier : Bool

/-- What the streams read of a row of `ex_outlier_stream`. -/
structure ExOutlierRow where
  eventStreamOrdering : ℤ
  eventId : String
  instanceName : Option String

/-- The tables about events.  Of the tables that are joined to `events` there is the one column that is
read, by event ID.  No two rows have the same stream ID, and no two events the same event ID. -/
structure EventTables where
  events : List EventsRow
  exOutlierStream : List ExOutlierRow
  /-- `redactions.redacts`. -/
  redactions : Dict String String
  /-- `state_events.state_key`. -/
  stateEvents : Dict String String
  /-- `event_relations.relates_to_id`. -/
  eventRelations : Dict String String
  /-- `room_memberships.membership`. -/
  roomMemberships : Dict String String
  /-- `rejections.reason`. -/
  rejections : Dict String String
  eventIds : (events.map EventsRow.eventId).Nodup
  streamIds : (events.map EventsRow.streamOrdering ++
    exOutlierStream.map ExOutlierRow.eventStreamOrdering).Nodup

namespace EventTables
variable (t : EventTables) (instanceName : String)

def writerEvents : List EventsRow := t.events.filter fun e => e.instanceName = some instanceName

/-- The rows of `ex_outlier_stream` of a writer, with their events. -/
def writerExOutliers : List (ExOutlierRow × EventsRow) :=
  (innerJoin ExOutlierRow.eventId EventsRow.eventId t.exOutlierStream t.events).filter fun out =>
    out.1.instanceName = some instanceName

theorem nodup_streamIds : ((t.writerEvents instanceName).map EventsRow.streamOrdering ++
      (t.writerExOutliers instanceName).map fun out => out.1.eventStreamOrdering).Nodup := by
  refine t.streamIds.sublist (List.Sublist.append (List.filter_sublist.map _) ?_)
  have hjoin : ((innerJoin ExOutlierRow.eventId EventsRow.eventId t.exOutlierStream t.events).map
      Prod.fst).Sublist t.exOutlierStream := map_fst_innerJoin_sublist t.eventIds _
  have hids := hjoin.map ExOutlierRow.eventStreamOrdering
  rw [List.map_map] at hids
  exact (List.filter_sublist.map _).trans hids

end EventTables
end Synapse.Storage
