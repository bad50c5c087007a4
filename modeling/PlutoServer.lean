import PlutoServer.Common.ByteMem
import PlutoServer.Common.CString
import PlutoServer.Common.DoublyLinked
import PlutoServer.Common.Forest
import PlutoServer.Common.Fuel
import PlutoServer.Common.Interleaving
import PlutoServer.Common.LinkedList
import PlutoServer.Common.LittleEndian
import PlutoServer.Common.Mutex
import PlutoServer.Common.Runs
import PlutoServer.Common.Segments
import PlutoServer.Common.Worklist
import PlutoServer.DBServer.Locking
import PlutoServer.DBServer.Shutdown
import PlutoServer.DBServer.Task
import PlutoServer.Pluto.AppendBuffer
import PlutoServer.Pluto.BitCryto
import PlutoServer.Pluto.ByteOrder
import PlutoServer.Pluto.Decode
import PlutoServer.Pluto.DecodeErrors
import PlutoServer.Pluto.DecodeTheorems
import PlutoServer.Pluto.Defs
import PlutoServer.Pluto.Encode
import PlutoServer.Pluto.EncodeTheorems
import PlutoServer.Pluto.Grammar
import PlutoServer.Pluto.Pool
import PlutoServer.Pluto.Rewrite
import PlutoServer.Pluto.RoundTrip
import PlutoServer.Pluto.StringTheorems
import PlutoServer.Server.Base
import PlutoServer.Server.Callbacks
import PlutoServer.Server.Config
import PlutoServer.Server.ConfigFile
import PlutoServer.Server.Delivery
import PlutoServer.Server.Dispatch
import PlutoServer.Server.Flush
import PlutoServer.Server.GameServer
import PlutoServer.Server.Headers
import PlutoServer.Server.Ids
import PlutoServer.Server.Lifetimes
import PlutoServer.Server.Link
import PlutoServer.Server.MailBox
import PlutoServer.Server.OpenConnections
import PlutoServer.Server.Reassembly
import PlutoServer.Server.Receipt
import PlutoServer.Server.Receive
import PlutoServer.Server.Registry
import PlutoServer.Server.SendTheorems
import PlutoServer.Server.TestMessage
import PlutoServer.Server.Wire
import PlutoServer.Tinyxml2.Dom
import PlutoServer.Tinyxml2.Editing
import PlutoServer.Tinyxml2.Entities
import PlutoServer.Tinyxml2.Grammar
import PlutoServer.Tinyxml2.InSitu
import PlutoServer.Tinyxml2.InSituStrings
import PlutoServer.Tinyxml2.InSituTheorems
import PlutoServer.Tinyxml2.Parse
import PlutoServer.Tinyxml2.ParseTheorems
import PlutoServer.Tinyxml2.Print
import PlutoServer.Tinyxml2.PrintTheorems
import PlutoServer.Tinyxml2.Reload
import PlutoServer.Tinyxml2.Strings
