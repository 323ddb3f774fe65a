import NetLibrary.Verify.Buffer.Queue
import NetLibrary.Verify.Buffer.Capacity
import NetLibrary.Verify.Buffer.Room
import NetLibrary.Verify.Buffer.Cost
import NetLibrary.Verify.Buffer.Release
import NetLibrary.Verify.SafeQueue.Fifo
import NetLibrary.Verify.SafeQueue.Wakeup
import NetLibrary.Verify.SafeQueue.Timed
import NetLibrary.Verify.ThreadPool.Join
import NetLibrary.Verify.EventLoop.Exit
import NetLibrary.Verify.EventLoop.Return
import NetLibrary.Verify.EventLoop.Drain
import NetLibrary.Verify.Timer.Firing
import NetLibrary.Verify.Timer.Links
import NetLibrary.Verify.Timer.Expiry
import NetLibrary.Verify.Timer.Running
import NetLibrary.Verify.Timer.Sleep
import NetLibrary.Verify.Channels
import NetLibrary.Verify.Shutdown
import NetLibrary.Verify.EchoServer
import NetLibrary.Verify.TcpConn.Send
import NetLibrary.Verify.TcpConn.Close
import NetLibrary.Verify.TcpConn.Input
import NetLibrary.Verify.TcpConn.LifeCycle
import NetLibrary.Verify.TcpServer
import NetLibrary.Verify.Conf.Isolation
import NetLibrary.Verify.Conf.Length
import NetLibrary.Verify.Conf.Reject
import NetLibrary.Verify.Conf.Memory
import NetLibrary.Verify.Conf.Typed
import NetLibrary.Verify.Conf.Separators
import NetLibrary.Verify.Logger.Interval
import NetLibrary.Verify.Logger.Record
import NetLibrary.Verify.Logger.Descriptor
import NetLibrary.Verify.Logger.Elect
import NetLibrary.Verify.Timestamp
import NetLibrary.Verify.FileStore
import NetLibrary.Verify.Status
import NetLibrary.Verify.Daemon.Exclusion
import NetLibrary.Verify.RawServer
import NetLibrary.Verify.Port
import NetLibrary.Verify.Net
import NetLibrary.Verify.Slice.Compare
import NetLibrary.Verify.Slice.Split
import NetLibrary.Verify.Slice.Words
