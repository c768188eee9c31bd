import CobsIoAsync.Protocol.RoundTrip
import CobsIoAsync.Sync.Canonical
import CobsIoAsync.Sync.Stream
import CobsIoAsync.Protocol.Burst
import CobsIoAsync.Protocol.Parse
import CobsIoAsync.Protocol.Payload
import CobsIoAsync.Sync.Capacity
import CobsIoAsync.Connection.Peers
import CobsIoAsync.Connection.Framing
import CobsIoAsync.Connection.Failure
import CobsIoAsync.Connection.Link
import CobsIoAsync.Connection.Agreement
import CobsIoAsync.Connection.Allowance
import CobsIoAsync.Connection.Timeout
import CobsIoAsync.Connection.Budget
import CobsIoAsync.Connection.Sequence
import CobsIoAsync.Network.Channel
import CobsIoAsync.Network.Silent
import CobsIoAsync.Connection.Cancel
import CobsIoAsync.Sync.Consecutive
import CobsIoAsync.Network.Session
import CobsIoAsync.Network.Stack
