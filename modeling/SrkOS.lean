import SrkOS.Framework.Lists
import SrkOS.Framework.System
import SrkOS.Framework.Execution
import SrkOS.Framework.Simulation
import SrkOS.Framework.Traces
import SrkOS.Framework.Register
import SrkOS.Framework.Writers
import SrkOS.Framework.Rust
import SrkOS.Framework.DoubleBuffer
import SrkOS.Framework.Sending
import SrkOS.Framework.SharedBuffer
import SrkOS.Framework.Channel
import SrkOS.Framework.Semaphore
import SrkOS.Framework.Search
import SrkOS.Framework.Utf8
import SrkOS.Framework.Str
import SrkOS.Framework.Decimal
import SrkOS.Impl.Ipc
import SrkOS.Impl.Payload
import SrkOS.Impl.Hardware
import SrkOS.Impl.Tasks
import SrkOS.Impl.BusSystem
import SrkOS.Impl.Camera
import SrkOS.Impl.CameraSystem
import SrkOS.Impl.CameraAtomics
import SrkOS.Impl.CameraStreams
import SrkOS.Impl.Audio
import SrkOS.Impl.AudioSystem
import SrkOS.Impl.AudioAtomics
import SrkOS.Impl.AudioStreams
import SrkOS.Impl.Connection
import SrkOS.Impl.ConnectionSystem
import SrkOS.Impl.ConnectionClient
import SrkOS.Impl.Http
import SrkOS.Impl.Espnow
import SrkOS.Impl.IngressSystem
import SrkOS.Proof.Bus.Updates
import SrkOS.Proof.Bus.Drain
import SrkOS.Proof.Bus.Handlers
import SrkOS.Proof.Bus.Servo
import SrkOS.Proof.Bus.Delivery
import SrkOS.Proof.Bus.Liveness
import SrkOS.Proof.Camera.Ring
import SrkOS.Proof.Camera.Stream
import SrkOS.Proof.Camera.Atomics
import SrkOS.Proof.Camera.Reads
import SrkOS.Proof.Camera.Sent
import SrkOS.Proof.Camera.Streams
import SrkOS.Proof.Camera.Calls
import SrkOS.Proof.Audio.PingPong
import SrkOS.Proof.Audio.Stream
import SrkOS.Proof.Audio.Atomics
import SrkOS.Proof.Audio.Sent
import SrkOS.Proof.Audio.Streams
import SrkOS.Proof.Audio.Calls
import SrkOS.Proof.Http.Connections
import SrkOS.Proof.Http.Retries
import SrkOS.Proof.Http.Linearize
import SrkOS.Proof.Http.Guards
import SrkOS.Proof.Http.Parse
import SrkOS.Proof.Http.Routes
import SrkOS.Proof.Http.Render
import SrkOS.Proof.Http.Ingress
import SrkOS.Proof.Http.SerdeJson
import SrkOS.Proof.Http.Payload
import SrkOS.Proof.Http.Truncate
import SrkOS.Proof.Http.Safety
import SrkOS.Proof.Http.Canonical
import SrkOS.Proof.Bus.EndToEnd
